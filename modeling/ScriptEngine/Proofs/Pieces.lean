import ScriptEngine.Proofs.Forest
import ScriptEngine.Proofs.References
import ScriptEngine.Proofs.Runs

/-!
# Building with pieces

While a tree is built, its arena is a heap of standing forests, the pieces. An operation takes a few
pieces by their roots and makes another one of them; all other pieces stay as they are. `Keeps`
carries this through a computation, so that each shape of the language needs to know its own parts
only.
-/

namespace ScriptEngine

open ScriptEngine.Tree List

variable {t t' : Tree} {p c : NodeId} {all used list : List NodeId} {f kp kc fs : Forest}
  {lp lc label : Node}

@[simp] theorem Node.label_ofKind (kind : Token) : (Node.ofKind kind).label = .ofKind kind := by
  simp only [Node.ofKind, Node.label, Node.detached, NodeData.ofKind]
  split
  · rfl
  · split <;> rfl

namespace Tree

/-- A computation keeps all standing forests but those with a used root, makes no cycle and leaves a
raw arena raw. -/
structure Keeps (used : List NodeId) (t t' : Tree) : Prop where
  linked : t'.Linked
  size_le : t.size ≤ t'.size
  stands : ∀ g, t.Stands g → (∀ r ∈ g.roots, r ∉ used) → t'.Stands g
  raw : t.Raw → t'.Raw
  acyclic : t.Acyclic → t'.Acyclic

theorem Keeps.refl (h : t.Linked) (used : List NodeId) : t.Keeps used t :=
  ⟨h, Nat.le_refl _, fun _ hg _ => hg, id, id⟩

theorem Stands.root_bound {g : Forest} (h : t.Stands g) {r : NodeId} (hr : r ∈ g.roots) :
    r.index < t.size := h.1.bound (g.roots_subset_ids hr)

/-- Computations in sequence; what is no root before the first need not be counted as used. -/
theorem Keeps.trans {used' : List NodeId} {t1 t2 : Tree} (h : Keeps used t t1)
    (h' : Keeps used' t1 t2)
    (hall : ∀ r, r ∈ used ∨ r ∈ used' → r.index < t.size → t.Orphan r → r ∈ all) :
    Keeps all t t2 := by
  refine ⟨h'.linked, Nat.le_trans h.size_le h'.size_le, fun g hg hr => ?_,
    fun hraw => h'.raw (h.raw hraw), fun ha => h'.acyclic (h.acyclic ha)⟩
  have hout : ∀ r ∈ g.roots, ¬ (r ∈ used ∨ r ∈ used') := fun r hrg hu =>
    hr r hrg (hall r hu (hg.root_bound hrg) (hg.2 r hrg))
  exact h'.stands g (h.stands g hg fun r hrg hu => hout r hrg (.inl hu))
    fun r hrg hu => hout r hrg (.inr hu)

/-- More may be said to be used. -/
theorem Keeps.weaken (h : Keeps used t t')
    (hall : ∀ r ∈ used, r.index < t.size → t.Orphan r → r ∈ all) : Keeps all t t' :=
  h.trans (Keeps.refl h.linked []) fun r hr => hall r (by simpa using hr)

/-- A piece with another root is kept. -/
theorem Keeps.tree (h : Keeps used t t') {id : NodeId} {l : Node} {kids : Forest}
    (hst : t.Stands (.tree id l kids)) (hnot : id ∉ used) :
    t'.Stands (.tree id l kids) := h.stands _ hst (by simpa using hnot)

/-- A node without a parent is in a forest only as one of its roots. -/
theorem Spells.not_mem_of_orphan (h : t.Spells f) (ho : t.Orphan p)
    (hr : p ∉ f.roots) : p ∉ f.ids := by
  intro hin
  rcases h.parent hin with hroot | ⟨q, -, hq⟩
  · exact hr hroot
  · exact ho q hq

/-- An edit below a node without a parent keeps the forests with other roots. -/
theorem Relinks.keeps (hre : t.Relinks t' fun q => if q = p then list else t.children q)
    (hdata : t.Relinked t') (ho : t.Orphan p) (hp : p ∈ used) (hnot : p ∉ list)
    (hlist : ∀ r ∈ list, r ∈ t.children p ∨ r ∈ used) : Keeps used t t' := by
  refine ⟨hre.linked, Nat.le_of_eq hre.size_eq.symm, fun g hg hr => ?_, hdata.raw,
    fun ha => ha.of_links fun q c hc => ?_⟩
  rotate_left
  · -- New links start at the node, which still has no parent.
    rw [hre.children_eq q] at hc
    split at hc
    · next he =>
      subst he
      refine .inr (.inl (Orphan.not_below fun a ha => ?_))
      rw [hre.children_eq a] at ha
      split at ha
      · exact hnot ha
      · exact ho a ha
    · exact .inl hc
  have hpg : p ∉ g.ids := hg.1.not_mem_of_orphan ho fun hpr => hr p hpr hp
  constructor
  · refine hg.1.congr (Nat.le_of_eq hre.size_eq.symm) fun q hq => ⟨hre.label_eq q, ?_⟩
    rw [hre.children_eq q, if_neg (by rintro rfl; exact hpg hq)]
  · intro r hrg q hrq
    rw [hre.children_eq q] at hrq
    split at hrq
    · rcases hlist r hrq with hold | hused
      · exact hg.2 r hrg p hold
      · exact hr r hrg hused
    · exact hg.2 r hrg q hrq

private theorem Relabels.keeps (hre : t.Relabels t' p label) (hraw : t.Raw → t'.Raw)
    (ho : t.Orphan p) : Keeps [p] t t' := by
  refine ⟨hre.linked, Nat.le_of_eq hre.size_eq.symm, fun g hg hr => ?_, hraw,
    fun ha => ha.of_links fun q c hc => .inl (hre.children_eq q ▸ hc)⟩
  have hpg : p ∉ g.ids := hg.1.not_mem_of_orphan ho fun hpr => hr p hpr (by simp)
  constructor
  · refine hg.1.congr (Nat.le_of_eq hre.size_eq.symm) fun q hq => ⟨?_, hre.children_eq q⟩
    rw [hre.label_eq q, if_neg (by rintro rfl; exact hpg hq)]
  · intro r hrg q hrq
    rw [hre.children_eq q] at hrq
    exact hg.2 r hrg q hrq

private theorem Grows.keeps (hg : t.Grows t' label) (hraw : t.Raw → t'.Raw) : Keeps [] t t' := by
  refine ⟨hg.linked, by rw [hg.size_eq]; omega, fun g hs _ => ?_, hraw,
    fun ha => ha.of_links fun q c hc => .inl (hg.children_eq q ▸ hc)⟩
  constructor
  · refine hs.1.congr (by rw [hg.size_eq]; omega) fun q hq => ⟨?_, hg.children_eq q⟩
    have hb := hs.1.bound hq
    rw [hg.label_eq q, if_neg (by rintro rfl; exact Nat.lt_irrefl _ hb)]
  · intro r hrg q hrq
    rw [hg.children_eq q] at hrq
    exact hs.2 r hrg q hrq

end Tree

namespace TreeM

variable (h : t.Linked)

/-- An edit that succeeds. -/
theorem runs_edit {f : Tree → Except Fault Tree} {post : Unit → Tree → Prop} (hf : f t = .ok t')
    (hpost : post () t') : Runs (edit f) t post := by
  refine ⟨(), t', ?_, hpost⟩
  show (f t).map _ = _
  rw [hf]
  rfl

/-- The root of a piece gets other children, which the arena spells already. -/
theorem stands_relink (hp : t.Stands (.tree p lp kp)) (hf : t.Spells f)
    (hre : t.Relinks t' fun q => if q = p then f.roots else t.children q) (hpf : p ∉ f.ids) :
    t'.Stands (.tree p lp f) := by
  have hop := hp.2 p (by simp)
  obtain ⟨⟨⟨hbp, hlp, -⟩, -⟩, -⟩ := hp
  refine ⟨⟨⟨hre.size_eq ▸ hbp, by rw [hre.label_eq, hlp], by rw [hre.children_eq, if_pos rfl]⟩,
    hf.congr (Nat.le_of_eq hre.size_eq.symm) fun q hq => ⟨hre.label_eq q, ?_⟩, trivial⟩,
    fun r hr q hrq => ?_⟩
  · rw [hre.children_eq, if_neg (by rintro rfl; exact hpf hq)]
  · rw [mem_singleton.mp hr, hre.children_eq q] at hrq
    split at hrq
    · exact hpf (f.roots_subset_ids hrq)
    · exact hop q hrq

/-- A piece is put among the children of the root of another one. The edits that do so differ in
the place only. -/
theorem stands_insert (front back : Forest)
    (hp : t.Stands (.tree p lp (front ++ back))) (hc : t.Stands (.tree c lc kc)) (hne : p ≠ c)
    (hre : t.Relinks t' fun q =>
      if q = p then front.roots ++ c :: back.roots else t.children q) (hdata : t.Relinked t') :
    t'.Stands (.tree p lp (front ++ .tree c lc kc ++ back)) ∧ t.Keeps [p, c] t' := by
  have hop := hp.2 p (by simp)
  obtain ⟨⟨-, -, hcp⟩, hsp, -⟩ := hp.1
  -- The root itself is in neither part.
  have hpk : p ∉ (front ++ back).ids := hsp.not_mem_of_orphan hop fun hr => hop p (hcp ▸ hr)
  have hpc : p ∉ (Forest.tree c lc kc).ids := hc.1.not_mem_of_orphan hop (by simpa using hne)
  rw [spells_append] at hsp
  refine ⟨stands_relink hp ?_ (by simpa using hre) ?_, hre.keeps hdata hop (by simp) ?_
    fun r hr => ?_⟩
  · exact spells_append.mpr ⟨spells_append.mpr ⟨hsp.1, hc.1⟩, hsp.2⟩
  · simp only [Forest.ids_append, mem_append, not_or] at hpk ⊢
    exact ⟨⟨hpk.1, hpc⟩, hpk.2⟩
  · have := (front ++ back).roots_subset_ids (a := p)
    simp only [mem_append, mem_cons, Forest.roots_append] at this ⊢
    grind
  · rw [hcp]
    simp only [mem_append, mem_cons, Forest.roots_append] at hr ⊢
    grind

/-- The root of a piece gets another label. -/
theorem stands_relabel (hp : t.Stands (.tree p lp kp)) (hre : t.Relabels t' p label)
    (hraw : t.Raw → t'.Raw) : t'.Stands (.tree p label kp) ∧ t.Keeps [p] t' := by
  have hop := hp.2 p (by simp)
  obtain ⟨⟨⟨hbp, hlp, hcp⟩, hsp, -⟩, -⟩ := hp
  have hpk : p ∉ kp.ids := hsp.not_mem_of_orphan hop fun hr => hop p (hcp ▸ hr)
  refine ⟨⟨⟨⟨?_, ?_, ?_⟩, ?_, trivial⟩, ?_⟩, hre.keeps hraw hop⟩
  · rw [hre.size_eq]
    exact hbp
  · rw [hre.label_eq, if_pos rfl]
  · rw [hre.children_eq, hcp]
  · refine hsp.congr (Nat.le_of_eq hre.size_eq.symm) fun q hq => ⟨?_, hre.children_eq q⟩
    rw [hre.label_eq, if_neg (by rintro rfl; exact hpk hq)]
  · intro r hr q hrq
    rw [mem_singleton.mp hr, hre.children_eq q] at hrq
    exact hop q hrq

include h

/-- A fresh node is a piece. -/
theorem runs_push {n : Node} (hn : n.detached = n) (hn' : t.Raw → n.Raw t.size) :
    Runs (push n) t fun id t' =>
      t.size ≤ id.index ∧ t'.Stands (.leaf id n.label) ∧ t.Keeps [] t' := by
  have hfirst : n.first = none := by rw [← hn]; rfl
  have hlast : n.last = none := by rw [← hn]; rfl
  have hnext : n.next = none := by rw [← hn]; rfl
  have hgrows := push_grows h hfirst hlast hnext
  refine ⟨⟨t.size⟩, (t.push n).2, rfl, Nat.le_refl _, ⟨⟨⟨?_, ?_, ?_⟩, trivial, trivial⟩, ?_⟩,
    hgrows.keeps fun hraw => hraw.push (hn' hraw)⟩
  · rw [hgrows.size_eq]
    exact Nat.lt_succ_self _
  · rw [hgrows.label_eq, if_pos rfl]
  · rw [hgrows.children_eq, children_of_size_le t ⟨t.size⟩ (Nat.le_refl _)]
    rfl
  · intro r hr q hrq
    rw [mem_singleton.mp hr, hgrows.children_eq q] at hrq
    exact Nat.lt_irrefl _ (h.bound q _ hrq)

/-- A piece becomes the last child of the root of another one. -/
theorem runs_addChildToBack (hp : t.Stands (.tree p lp kp)) (hc : t.Stands (.tree c lc kc))
    (hne : p ≠ c) :
    Runs (addChildToBack p c) t fun _ t' =>
      t'.Stands (.tree p lp (kp ++ .tree c lc kc)) ∧ t.Keeps [p, c] t' := by
  obtain ⟨t', hrun, hre⟩ := h.addChildToBack_relinks hp.1.1.1 hc.1.1.1 (hc.2 c (by simp))
  rw [hp.1.1.2.2] at hre
  have hst := stands_insert kp .nil (by simpa using hp) hc hne hre (.of_addChildToBack hrun)
  exact runs_edit hrun (by simpa using hst)

/-- A piece becomes the first child of the root of another one. -/
theorem runs_addChildToFront (hp : t.Stands (.tree p lp kp)) (hc : t.Stands (.tree c lc kc))
    (hne : p ≠ c) :
    Runs (addChildToFront p c) t fun _ t' =>
      t'.Stands (.tree p lp (.tree c lc kc ++ kp)) ∧ t.Keeps [p, c] t' := by
  obtain ⟨t', hrun, hre⟩ := h.addChildToFront_relinks hp.1.1.1 hc.1.1.1 (hc.2 c (by simp))
  rw [hp.1.1.2.2] at hre
  have hst := stands_insert .nil kp (by simpa using hp) hc hne hre (.of_addChildToFront hrun)
  exact runs_edit hrun (by simpa using hst)

/-- A piece is put behind a child of the root of another one. -/
theorem runs_addChildAfter (front back : Forest) {a : NodeId} {la : Node} {ka : Forest}
    (hp : t.Stands (.tree p lp (front ++ .tree a la ka ++ back)))
    (hc : t.Stands (.tree c lc kc)) (hne : p ≠ c) :
    Runs (addChildAfter p c a) t fun _ t' =>
      t'.Stands (.tree p lp (front ++ .tree a la ka ++ .tree c lc kc ++ back)) ∧
        t.Keeps [p, c] t' := by
  have hcp : t.children p = front.roots ++ a :: back.roots := by simpa using hp.1.1.2.2
  obtain ⟨t', hrun, hre⟩ :=
    h.addChildAfter_relinks hcp hc.1.1.1 (hc.2 c (by simp))
  exact runs_edit hrun
    (stands_insert (front ++ .tree a la ka) back hp hc hne (by simpa using hre)
      (.of_addChildAfter hrun))

/-- A child of the root of a piece becomes a piece of its own. -/
theorem runs_removeChild (front back : Forest)
    (hp : t.Stands (.tree p lp (front ++ .tree c lc kc ++ back))) :
    Runs (removeChild p c) t fun _ t' =>
      t'.Stands (.tree p lp (front ++ back)) ∧ t'.Stands (.tree c lc kc) ∧ t.Keeps [p] t' := by
  have hop := hp.2 p (by simp)
  obtain ⟨⟨-, -, hcp⟩, hsp, -⟩ := hp.1
  have hcp' : t.children p = front.roots ++ c :: back.roots := by simpa using hcp
  obtain ⟨t', hrun, hre⟩ := h.removeChild_relinks hcp'
  have hpk : p ∉ (front ++ .tree c lc kc ++ back).ids :=
    hsp.not_mem_of_orphan hop fun hr => hop p (hcp ▸ hr)
  have hspell := hsp.congr (Nat.le_of_eq hre.size_eq.symm) fun q hq =>
    ⟨hre.label_eq q, by rw [hre.children_eq q, if_neg (by rintro rfl; exact hpk hq)]⟩
  have hsub : ∀ r ∈ front.roots ++ back.roots, r ∈ t.children p := fun r hr => by
    simp only [hcp', mem_append, mem_cons] at hr ⊢
    exact hr.imp_right .inr
  rw [spells_append, spells_append] at hsp hspell
  refine runs_edit hrun ⟨stands_relink hp (spells_append.mpr ⟨hsp.1.1, hsp.2⟩)
    (by simpa using hre) ?_, ⟨hspell.1.2, ?_⟩,
    hre.keeps (.of_removeChild hrun) hop (by simp) (fun hin => hop p (hsub p hin))
      fun r hr => .inl (hsub r hr)⟩
  · simp only [Forest.ids_append, mem_append, not_or] at hpk ⊢
    exact ⟨hpk.1.1, hpk.2⟩
  · -- The only list that held the child was that of the root.
    have hnot := h.not_mem_of_children hcp'
    intro r hr q hrq
    rw [mem_singleton.mp hr, hre.children_eq q] at hrq
    split at hrq
    · rcases mem_append.mp hrq with hm | hm
      · exact hnot.1 hm
      · exact hnot.2 hm
    · next hq => exact hq (h.unique q p c hrq (by simp [hcp']))

/-- Pieces become children of the root of another one, one by one. -/
theorem runs_addChildren (hp : t.Stands (.tree p lp kp)) (hfs : t.Stands fs)
    (hroots : fs.roots = list) (hnodup : list.Nodup) (hne : p ∉ list) :
    Runs (addChildren p list) t fun _ t' =>
      t'.Stands (.tree p lp (kp ++ fs)) ∧ t.Keeps (p :: list) t' := by
  induction fs generalizing t kp list with
  | nil =>
    subst hroots
    exact Runs.pure ⟨by simpa using hp, Tree.Keeps.refl h _⟩
  | cons id label kids rest _ ih =>
    subst hroots
    obtain ⟨hone, hrest⟩ := stands_cons.mp hfs
    simp only [Forest.roots_cons, nodup_cons, mem_cons, not_or] at hnodup hne
    refine (runs_addChildToBack h hp hone hne.1).bind fun _ t1 hst => ?_
    obtain ⟨hp1, hk1⟩ := hst
    have hrest1 : t1.Stands rest := by
      refine hk1.stands rest hrest fun r hr hin => ?_
      simp only [mem_cons, not_mem_nil, or_false] at hin
      rcases hin with rfl | rfl
      · exact hne.2 hr
      · exact hnodup.1 hr
    refine (ih hk1.linked hp1 hrest1 rfl hnodup.2 hne.2).mono fun _ t2 hst2 => ?_
    refine ⟨by simpa using hst2.1, hk1.trans hst2.2 fun r hr _ _ => ?_⟩
    simp only [mem_cons, Forest.roots_cons] at hr ⊢
    grind

/-- A change of the root that keeps its links. -/
theorem runs_modify {f : Node → Node} (hp : t.Stands (.tree p lp kp))
    (hfirst : ∀ n, (f n).first = n.first) (hlast : ∀ n, (f n).last = n.last)
    (hnext : ∀ n, (f n).next = n.next) (hlabel : ∀ n, n.label = lp → (f n).label = label)
    (hraw : ∀ n : Node, n.Raw t.size → (f n).Raw t.size) :
    Runs (modify fun t => t.modify p f : TreeM PUnit) t fun _ t' =>
      t'.Stands (.tree p label kp) ∧ t.Keeps [p] t' := by
  have hre := modify_relabels h hp.1.1.1 hfirst hlast hnext
  rw [hlabel (t.node p) hp.1.1.2.1] at hre
  exact Runs.modify (stands_relabel hp hre fun ht => ht.modify (hraw _))

/-- The root of a piece gets other jump targets. -/
theorem runs_modifyJump {j : JumpData}
    {f : JumpData → JumpData} (hst : t.Stands (.tree p lp kp)) (hdata : lp.data = .jump j)
    (hrefs : ∀ r ∈ (NodeData.jump (f j)).refs, r ∈ (NodeData.jump j).refs ∨ r.index < t.size) :
    Runs (modifyJump p f) t fun _ t' =>
      t'.Stands (.tree p { lp with data := .jump (f j) } kp) ∧ t.Keeps [p] t' := by
  have hjump : t.jump? p = some j := by
    rw [jump?_eq_label, hst.1.1.2.1, Node.jump?, hdata]
  have hre := modify_relabels h hst.1.1.1 (f := fun n => { n with data := .jump (f j) })
    (fun _ => rfl) (fun _ => rfl) (fun _ => rfl)
  have hlabel : ({ t.node p with data := .jump (f j) } : Node).label =
      { lp with data := .jump (f j) } := by
    rw [← hst.1.1.2.1]
    rfl
  rw [hlabel] at hre
  have hold : (t.node p).data = .jump j := by
    cases hd : (t.node p).data <;> simp_all [jump?, Node.jump?]
  refine runs_edit ?_ (stands_relabel hst hre fun ht => ht.modify fun hp => ⟨rfl, fun r hr => ?_⟩)
  · simp only [Tree.modifyJump, Tree.check_eq_ok hst.1.1.1, hjump, bind, Except.bind, pure,
      Except.pure]
  · rcases mem_append.mp hr with hr | hr
    · refine (hrefs r hr).elim (fun hr => hp.refers r (mem_append_left _ ?_)) id
      rwa [hold]
    · exact hp.refers r (mem_append_right _ hr)

/-- A fresh node over pieces. -/
theorem runs_newWithChildren {kind : Token} (hfs : t.Stands fs)
    (hroots : fs.roots = list) (hnodup : list.Nodup) (hlen : list.length ≤ 3) :
    Runs (newWithChildren kind list) t fun id t' =>
      t.size ≤ id.index ∧ t'.Stands (.tree id (.ofKind kind) fs) ∧ t.Keeps list t' := by
  unfold newWithChildren
  rw [if_neg (by omega)]
  refine (runs_push h rfl fun _ => .fresh rfl rfl).bind fun id t1 ⟨hid, hst, hk⟩ => ?_
  rw [Node.label_ofKind] at hst
  have hfs1 : t1.Stands fs := hk.stands fs hfs (by simp)
  have hnot : id ∉ list := by
    intro hin
    have hb := hfs.root_bound (hroots ▸ hin)
    omega
  refine (runs_addChildren hk.linked hst hfs1 hroots hnodup hnot).bind fun _ t2 hst2 => ?_
  refine Runs.pure ⟨hid, by simpa using hst2.1, hk.trans hst2.2 fun r hr hlt _ => ?_⟩
  simp only [mem_cons, not_mem_nil, false_or] at hr
  rcases hr with rfl | hr
  · omega
  · exact hr

end TreeM

end ScriptEngine
