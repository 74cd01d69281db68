import ScriptEngine.Proofs.TryBuilt
import ScriptEngine.Syntax.Builder

/-!
# Programs under construction

In a program under construction every body has a root of its own, which stands over statements that
are built; while a function is open there are none. All other pieces have other roots.

`Program.Framed` says this of a program with its open functions. `Builder.Extends` says what a
computation keeps, whatever it opens and closes, and `Builder.Keeps` adds that the program is framed
again with the same functions open. `Builder.Leaves` says which parts lie about afterwards.
-/

namespace ScriptEngine

open Runs Program List

variable {x : Body} {used statements : List NodeId} {k id : BodyId} {P : Parts} {α : Type}
  {source name : String} {t tree : Tree} {endLine : Nat} {r root : NodeId} {f : Body → Body}
  {l : Node} {kids : Forest}

/-- The kinds of the nodes that stand for whole bodies. -/
def Token.isRoot : Token → Bool
  | .script | .function => true
  | _ => false

/-- A node that stands for a whole body, and knows of no slot. -/
def Node.IsRoot (l : Node) : Prop := l.kind.isRoot ∧ l.attrs.get? .varIndex = none

/-- The last of the statements is a return. -/
def Forest.EndsInReturn (f : Forest) : Prop :=
  ∃ front id l kids, f = front ++ .tree id l kids ∧ l.kind = .ret

private theorem Forest.eq_nil_or_append_tree (f : Forest) :
    f = .nil ∨ ∃ front id l kids, f = front ++ .tree id l kids := by
  induction f with
  | nil => exact .inl rfl
  | cons id l kids rest _ ih =>
    rcases ih with rfl | ⟨front, id', l', kids', rfl⟩
    · exact .inr ⟨.nil, id, l, kids, rfl⟩
    · exact .inr ⟨.cons id l kids front, id', l', kids', rfl⟩

/-- Nothing has been found yet of what a body needs to be run. -/
structure Body.Untouched (id : BodyId) (b : Body) : Prop where
  requiresActivation_eq : b.requiresActivation = false
  checkThis_eq : b.checkThis = false
  isFunction_eq : b.isFunction = decide (id ≠ .script)

/-- A later record of the same body, of which nothing more has been found. -/
structure Body.Grows (x y : Body) : Prop where
  root_eq : y.root = x.root
  regexps_le : x.regexps.length ≤ y.regexps.length
  functionType_eq : y.functionType = x.functionType
  requiresActivation_eq : y.requiresActivation = x.requiresActivation
  checkThis_eq : y.checkThis = x.checkThis

private theorem Body.Grows.untouched {y : Body} (h : x.Grows y) (hx : x.Untouched id) :
    y.Untouched id where
  requiresActivation_eq := h.requiresActivation_eq.trans hx.requiresActivation_eq
  checkThis_eq := h.checkThis_eq.trans hx.checkThis_eq
  isFunction_eq := by
    rw [← hx.isFunction_eq, isFunction, isFunction, h.functionType_eq]

namespace Program

variable (p : Program)

@[simp] theorem size_modifyBody (id : BodyId) (f : Body → Body) :
    (p.modifyBody id f).bodies.size = p.bodies.size := by
  simp [modifyBody]

/-- One body is changed. -/
theorem body_modifyBody (h : id.index < p.bodies.size) (f : Body → Body) (j : BodyId) :
    (p.modifyBody id f).body j = if j = id then f (p.body id) else p.body j := by
  simp only [body, modifyBody, Array.getD_eq_getD_getElem?, Array.getElem?_modify]
  by_cases hj : j = id
  · subst hj
    simp [h]
  · have hne : id.index ≠ j.index := fun he => hj (by cases id; cases j; simp_all)
    simp [hj, hne]

/-- A body is added behind the others. -/
theorem body_push (tree : Tree) (x : Body) (j : BodyId) :
    ({ tree, bodies := p.bodies.push x } : Program).body j =
      if j.index = p.bodies.size then x else p.body j := by
  simp only [body, Array.getD_eq_getD_getElem?, Array.getElem?_push]
  split <;> rfl

/-- The nodes whose children are the statements of bodies. -/
def roots : List NodeId := p.bodies.toList.map (·.root)

/-- What the nodes of a body may refer to. -/
def limits (id : BodyId) : Limits := ⟨p.bodies.size, (p.body id).regexps.length, id⟩

private theorem root_mem_roots (h : id.index < p.bodies.size) : (p.body id).root ∈ p.roots := by
  refine mem_map.mpr ⟨p.bodies[id.index], by simp, ?_⟩
  simp [body, Array.getD_eq_getD_getElem?, h]

private theorem mem_roots (h : r ∈ p.roots) :
    ∃ id : BodyId, id.index < p.bodies.size ∧ (p.body id).root = r := by
  obtain ⟨b, hb, rfl⟩ := mem_map.mp h
  obtain ⟨i, hi, rfl⟩ := getElem_of_mem hb
  refine ⟨⟨i⟩, by simpa using hi, ?_⟩
  simp only [Array.length_toList] at hi
  simp [body, Array.getD_eq_getD_getElem?, hi]

/-- The root of a body stands over its statements. -/
def Rooted (id : BodyId) : Prop :=
  ∃ l kids, l.IsRoot ∧ p.tree.Stands (.tree (p.body id).root l kids) ∧
    kids.Made (p.limits id) [] 0 .list

/-- A function that may be listed in a body: it comes later, is closed, and ends in a return. -/
structure Nests (opened : List BodyId) (id k : BodyId) : Prop where
  later : id.index < k.index
  bound : k.index < p.bodies.size
  closed : k ∉ opened
  returns : ∃ l kids, p.tree.Stands (.tree (p.body k).root l kids) ∧ kids.EndsInReturn

/-- A program under construction, with the functions that are open, innermost first. -/
structure Framed (opened : List BodyId) : Prop where
  linked : p.tree.Linked
  acyclic : p.tree.Acyclic
  raw : p.tree.Raw
  opened_lt : ∀ id ∈ opened, id.index < p.bodies.size
  sorted : opened.Pairwise fun inner outer => outer.index < inner.index
  root_inj : ∀ i j : BodyId, i.index < p.bodies.size → j.index < p.bodies.size →
    (p.body i).root = (p.body j).root → i = j
  rooted : ∀ id : BodyId, id.index < p.bodies.size → p.Rooted id
  untouched : ∀ id : BodyId, id.index < p.bodies.size → (p.body id).Untouched id
  nested : ∀ id : BodyId, id.index < p.bodies.size → ∀ k ∈ (p.body id).functions,
    p.Nests opened id k

variable {p} {p' : Program} {opened opened' : List BodyId}

private theorem Rooted.trans (h : p.Rooted id) (hbody : (p'.body id).root = (p.body id).root)
    (hlimits : p.limits id ≤ p'.limits id) (hk : p.tree.Keeps used p'.tree)
    (hnot : (p.body id).root ∉ used) : p'.Rooted id := by
  obtain ⟨l, kids, hl, hst, hmade⟩ := h
  exact ⟨l, kids, hl, hbody ▸ hk.tree hst hnot, hmade.mono hlimits⟩

private theorem Nests.trans (h : p.Nests opened id k) (hbody : (p'.body k).root = (p.body k).root)
    (hsize : p.bodies.size ≤ p'.bodies.size) (hk : p.tree.Keeps used p'.tree)
    (hnot : (p.body k).root ∉ used) (hopen : k ∈ opened' → k ∈ opened) : p'.Nests opened' id k := by
  obtain ⟨hlater, hbound, hclosed, l, kids, hst, hreturn⟩ := h
  exact ⟨hlater, Nat.lt_of_lt_of_le hbound hsize, fun hin => hclosed (hopen hin), l, kids,
    hbody ▸ hk.tree hst hnot, hreturn⟩

/-- The root of a body has the label of a root. -/
theorem Framed.isRoot (h : p.Framed opened) (hid : id.index < p.bodies.size) :
    (p.tree.label (p.body id).root).IsRoot := by
  obtain ⟨l, kids, hl, ⟨⟨⟨-, hlabel, -⟩, -⟩, -⟩, -⟩ := h.rooted id hid
  rwa [hlabel]

private theorem Framed.root_lt (h : p.Framed opened) (hr : r ∈ p.roots) :
    r.index < p.tree.size := by
  obtain ⟨id, hid, rfl⟩ := p.mem_roots hr
  obtain ⟨l, kids, -, hst, -⟩ := h.rooted id hid
  exact hst.root_bound (by simp)

/-- No body lists a function. -/
def Unlisted (p : Program) (id : BodyId) : Prop :=
  ∀ j : BodyId, j.index < p.bodies.size → id ∉ (p.body j).functions

private theorem Unlisted.congr (h : p.Unlisted id) (hbodies : p'.bodies = p.bodies) :
    p'.Unlisted id := by
  unfold Unlisted body at *
  rwa [hbodies]

private theorem Unlisted.modifyBody (h : p.Unlisted k) (hid : id.index < p.bodies.size)
    (hfun : ∀ x, (f x).functions = x.functions) : (p.modifyBody id f).Unlisted k := by
  intro j hj
  rw [size_modifyBody] at hj
  rw [p.body_modifyBody hid]
  split
  · rw [hfun]
    exact h id hid
  · exact h j hj

/-- A function that is open is not listed. -/
theorem Framed.unlisted (h : p.Framed opened) (hopen : id ∈ opened) : p.Unlisted id :=
  fun j hj hin => (h.nested j hj id hin).closed hopen

/-- In another tree only the roots of bodies that are not listed may have changed. -/
theorem Framed.retree (h : p.Framed opened) (hsub : opened'.Sublist opened)
    (hk : p.tree.Keeps used tree)
    (hnew : ∀ j : BodyId, j.index < p.bodies.size → (p.body j).root ∈ used →
      p.Unlisted j ∧ ({ p with tree } : Program).Rooted j) :
    ({ p with tree } : Program).Framed opened' := by
  refine ⟨hk.linked, hk.acyclic h.acyclic, hk.raw h.raw, fun j hj => h.opened_lt j (hsub.subset hj),
    h.sorted.sublist hsub, h.root_inj, fun j hj => ?_, h.untouched, fun j hj k hfk => ?_⟩
  · by_cases hin : (p.body j).root ∈ used
    · exact (hnew j hj hin).2
    · exact (h.rooted j hj).trans rfl ⟨Nat.le_refl _, Nat.le_refl _, rfl⟩ hk hin
  · have hnests := h.nested j hj k hfk
    exact hnests.trans rfl (Nat.le_refl _) hk
      (fun hin => (hnew k hnests.bound hin).1 j hj hfk) (hsub.subset ·)

/-- A body is opened, with a root of its own. -/
theorem Framed.push (h : p.Framed opened) (hk : p.tree.Keeps used tree)
    (hused : ∀ r ∈ used, r ∉ p.roots) (hroot : x.root ∉ p.roots) (hl : l.IsRoot)
    (hst : tree.Stands (.leaf x.root l)) (hfun : x.functions = [])
    (hx : x.Untouched ⟨p.bodies.size⟩) :
    ({ tree, bodies := p.bodies.push x } : Program).Framed (⟨p.bodies.size⟩ :: opened) := by
  have hold : ∀ j : BodyId, j.index < p.bodies.size →
      ({ tree, bodies := p.bodies.push x } : Program).body j = p.body j := fun j hj =>
    (p.body_push tree x j).trans (if_neg (by omega))
  have hnew : ({ tree, bodies := p.bodies.push x } : Program).body ⟨p.bodies.size⟩ = x :=
    (p.body_push tree x _).trans (if_pos rfl)
  have hle : p.bodies.size ≤ (p.bodies.push x).size := by simp
  have hkeep : ∀ j : BodyId, j.index < p.bodies.size → (p.body j).root ∉ used := fun j hj hin =>
    hused _ hin (p.root_mem_roots hj)
  have hopen : ∀ j : BodyId, j.index < p.bodies.size → j ∈ ⟨p.bodies.size⟩ :: opened → j ∈ opened :=
    fun j hj hin => (mem_cons.mp hin).resolve_left fun he => by simp [he] at hj
  -- Of each body we know what was known before, or it is the new one.
  have hsplit : ∀ j : BodyId, j.index < (p.bodies.push x).size →
      j = ⟨p.bodies.size⟩ ∨ j.index < p.bodies.size := by
    intro j hj
    rw [Array.size_push] at hj
    by_cases he : j.index = p.bodies.size
    · exact .inl (by cases j; simp_all)
    · exact .inr (by omega)
  refine ⟨hk.linked, hk.acyclic h.acyclic, hk.raw h.raw, fun j hj => ?_,
    pairwise_cons.mpr ⟨fun j hj => h.opened_lt j hj, h.sorted⟩, fun i j hi hj he => ?_,
    fun j hj => ?_, fun j hj => ?_, fun j hj k hfk => ?_⟩
  · rcases mem_cons.mp hj with rfl | hj
    · simp
    · exact Nat.lt_of_lt_of_le (h.opened_lt j hj) hle
  · rcases hsplit i hi with rfl | hi <;> rcases hsplit j hj with rfl | hj
    · rfl
    · rw [hnew, hold j hj] at he
      exact absurd (he ▸ p.root_mem_roots hj) hroot
    · rw [hnew, hold i hi] at he
      exact absurd (he ▸ p.root_mem_roots hi) hroot
    · rw [hold i hi, hold j hj] at he
      exact h.root_inj i j hi hj he
  · rcases hsplit j hj with rfl | hlt
    · exact ⟨l, .nil, hl, by rwa [hnew], .nil⟩
    · refine (h.rooted j hlt).trans (by rw [hold j hlt]) ⟨hle, ?_, rfl⟩ hk (hkeep j hlt)
      simp only [limits, hold j hlt]
      exact Nat.le_refl _
  · rcases hsplit j hj with rfl | hlt
    · rwa [hnew]
    · rw [hold j hlt]
      exact h.untouched j hlt
  · rcases hsplit j hj with rfl | hlt
    · rw [hnew, hfun] at hfk
      exact absurd hfk not_mem_nil
    · rw [hold j hlt] at hfk
      have hnests := h.nested j hlt k hfk
      exact hnests.trans (by rw [hold k hnests.bound]) hle hk (hkeep k hnests.bound)
        (hopen k hnests.bound)

/-- Parts that lie about beside the bodies. -/
structure Has (p : Program) (limits : Limits) (P : Parts) : Prop where
  holds : ∃ f, P.Holds limits f ∧ p.tree.Stands f
  nodup : P.roots.Nodup
  not_root : ∀ r ∈ P.roots, r ∉ p.roots

/-- The parts are nodes of the tree. -/
theorem Has.bound {limits : Limits} (h : p.Has limits P) (hr : r ∈ P.roots) :
    r.index < p.tree.size := by
  obtain ⟨f, hf, hst⟩ := h.holds
  exact hst.root_bound (hf.1 ▸ hr)

/-- Parts are brought to a workbench. -/
theorem Has.bench {limits : Limits} (h : p.Has limits P) (hlinked : p.tree.Linked) :
    ∃ f, P.Holds limits f ∧ Workbench p.tree P.roots p.tree [f] := by
  obtain ⟨f, hf, hst⟩ := h.holds
  exact ⟨f, hf, hf.1 ▸ .start hlinked hst (hf.1 ▸ h.nodup)⟩

theorem has_none (limits : Limits) : p.Has limits .none :=
  ⟨⟨.nil, Parts.holds_none limits, Tree.stands_nil _⟩, nodup_nil, nofun⟩

end Program

namespace Builder

/-- What a computation keeps of a program under construction: the pieces whose roots it does not
use, and what nodes refer to. Roots of new bodies are fresh. -/
structure Extends (used : List NodeId) (b b' : Builder) : Prop where
  tree : b.program.tree.Keeps (used ++ b.program.roots) b'.program.tree
  bodies_le : b.program.bodies.size ≤ b'.program.bodies.size
  regexps_le : ∀ id : BodyId, id.index < b.program.bodies.size →
    (b.program.body id).regexps.length ≤ (b'.program.body id).regexps.length
  root_eq : ∀ id : BodyId, id.index < b.program.bodies.size →
    (b'.program.body id).root = (b.program.body id).root
  roots_new : ∀ r ∈ b'.program.roots, r ∈ b.program.roots ∨ b.program.tree.size ≤ r.index

/-- A computation that closes what it opens. -/
structure Keeps (used : List NodeId) (b b' : Builder) : Prop extends Extends used b b' where
  framed : b'.program.Framed b'.opened
  opened_eq : b'.opened = b.opened

variable {b b' b1 b2 : Builder} {used' all : List NodeId}

/-- One extension after another. -/
theorem Extends.trans (h : Extends used b b1) (h' : Extends used' b1 b2)
    (hall : ∀ r, r ∈ used ∨ r ∈ used' → r.index < b.program.tree.size → r ∈ all) :
    Extends all b b2 := by
  refine ⟨h.tree.trans h'.tree ?_, Nat.le_trans h.bodies_le h'.bodies_le, ?_, ?_, ?_⟩
  · rintro r hr hlt -
    simp only [mem_append] at hr ⊢
    rcases hr with (hr | hr) | (hr | hr)
    · exact .inl (hall r (.inl hr) hlt)
    · exact .inr hr
    · exact .inl (hall r (.inr hr) hlt)
    · exact .inr ((h.roots_new r hr).resolve_right (by omega))
  · intro id hid
    exact Nat.le_trans (h.regexps_le id hid) (h'.regexps_le id (Nat.lt_of_lt_of_le hid h.bodies_le))
  · intro id hid
    exact (h'.root_eq id (Nat.lt_of_lt_of_le hid h.bodies_le)).trans (h.root_eq id hid)
  · intro r hr
    rcases h'.roots_new r hr with hr | hr
    · exact h.roots_new r hr
    · exact .inr (Nat.le_trans h.tree.size_le hr)

private theorem Keeps.trans (h : Keeps used b b1) (h' : Keeps used' b1 b2)
    (hall : ∀ r, r ∈ used ∨ r ∈ used' → r.index < b.program.tree.size → r ∈ all) : Keeps all b b2 :=
  ⟨h.toExtends.trans h'.toExtends hall, h'.framed, h'.opened_eq.trans h.opened_eq⟩

/-- What uses nothing may follow. -/
theorem Keeps.trans_nil (h : Keeps used b b1) (h' : Keeps [] b1 b2) : Keeps used b b2 :=
  h.trans h' fun r hr _ => by simpa using hr

theorem Keeps.refl (h : b.program.Framed b.opened) (used : List NodeId) : Keeps used b b :=
  ⟨⟨.refl h.linked _, Nat.le_refl _, fun _ _ => Nat.le_refl _, fun _ _ => rfl, fun _ hr => .inl hr⟩,
    h, rfl⟩

/-- More may be said to be used. -/
theorem Keeps.weaken (h : Keeps used b b')
    (hall : ∀ r ∈ used, r.index < b.program.tree.size → r ∈ all) : Keeps all b b' :=
  h.trans (Keeps.refl h.framed []) fun r hr => hall r (by simpa using hr)

/-- What the nodes of the current body may refer to. -/
def limits (b : Builder) : Limits := b.program.limits b.current

private theorem current_mem (hopen : b.opened ≠ []) : b.current ∈ b.opened := by
  unfold current
  cases h : b.opened with
  | nil => exact absurd h hopen
  | cons id rest => simp

private theorem Keeps.current_eq (h : Keeps used b b') : b'.current = b.current := by
  rw [current, current, h.opened_eq]

/-- A piece that is no root of a body stays so. -/
theorem Extends.not_root (h : Extends used b b') (hr : r ∉ b.program.roots)
    (hlt : r.index < b.program.tree.size) : r ∉ b'.program.roots := fun hin =>
  (h.roots_new r hin).elim hr (by omega)

private theorem run_onTree {m : TreeM α} {a : α} (h : m.run b.program.tree = .ok (a, tree)) :
    (onTree m).run b = .ok (a, { b with program := { b.program with tree } }) := by
  have hrun : m b.program.tree = .ok (a, tree) := h
  show (m b.program.tree >>= _) = _
  rw [hrun]
  rfl

/-- Work on the current body can go on. -/
structure Ready (b : Builder) : Prop where
  framed : b.program.Framed b.opened
  opened_ne : b.opened ≠ []

private theorem Ready.current_lt (h : b.Ready) : b.current.index < b.program.bodies.size :=
  h.framed.opened_lt _ (current_mem h.opened_ne)

/-- A builder stays ready. -/
theorem Keeps.ready (hk : b.Keeps used b') (h : b.Ready) : b'.Ready :=
  ⟨hk.framed, hk.opened_eq ▸ h.opened_ne⟩

private theorem Keeps.limits_le (hk : b.Keeps used b') (h : b.Ready) : b.limits ≤ b'.limits := by
  refine ⟨hk.bodies_le, ?_, hk.current_eq.symm⟩
  show _ ≤ (b'.program.body b'.current).regexps.length
  rw [hk.current_eq]
  exact hk.regexps_le _ h.current_lt

/-- Parts of the current body. -/
abbrev Has (b : Builder) (P : Parts) : Prop := b.program.Has b.limits P

/-- Parts that are not used stay as they are. -/
theorem Has.keep (hP : b.Has P) (h : b.Ready) (hk : b.Keeps used b')
    (hr : ∀ r ∈ P.roots, r ∉ used) : b'.Has P := by
  obtain ⟨f, hf, hst⟩ := hP.holds
  refine ⟨⟨f, ⟨hf.1, P.mono hf.2 (hk.limits_le h)⟩, hk.tree.stands f hst fun r hin => ?_⟩, hP.nodup,
    fun r hin => hk.not_root (hP.not_root r hin) (hP.bound hin)⟩
  have hin' : r ∈ P.roots := hf.1 ▸ hin
  simp only [mem_append, not_or]
  exact ⟨hr r hin', hP.not_root r hin'⟩

/-- Parts that are left; they are fresh or were there before. -/
structure Leaves (used : List NodeId) (P : Parts) (b b' : Builder) : Prop where
  has : b'.Has P
  keeps : b.Keeps used b'
  fresh : ∀ r ∈ P.roots, r ∈ used ∨ b.program.tree.size ≤ r.index

/-- What leaves parts may come after other work. -/
theorem Leaves.trans (h : b1.Leaves used' P b2) (hk : b.Keeps used b1)
    (hall : ∀ r, r ∈ used ∨ r ∈ used' → r.index < b.program.tree.size → r ∈ all) :
    b.Leaves all P b2 := by
  refine ⟨h.has, hk.trans h.keeps hall, fun r hr => ?_⟩
  by_cases hlt : r.index < b.program.tree.size
  · refine .inl (hall r (.inr ((h.fresh r hr).resolve_right ?_)) hlt)
    have := hk.tree.size_le
    omega
  · exact .inr (by omega)

/-- What a computation on the tree makes of its parts. -/
theorem runs_onTree {m : TreeM α} {Q : α → Parts} (h : b.Ready) (hP : b.Has P)
    (hm : ∀ f, P.Holds b.limits f → Workbench b.program.tree P.roots b.program.tree [f] →
      Runs m b.program.tree fun a t' =>
        ∃ g, (Q a).Holds b.limits g ∧ Workbench b.program.tree P.roots t' [g]) :
    Runs (onTree m) b fun a b' => b.Leaves P.roots (Q a) b' ∧
      b'.program.bodies = b.program.bodies ∧ b.program.tree.Keeps P.roots b'.program.tree := by
  obtain ⟨f, hf, H⟩ := hP.bench h.framed.linked
  obtain ⟨a, tree, hrun, g, hg, H⟩ := hm f hf H
  have hfresh : ∀ r ∈ (Q a).roots, r ∈ P.roots ∨ b.program.tree.size ≤ r.index := fun r hr =>
    H.fresh r (by simpa [hg.1] using hr)
  have hframed := h.framed.retree (.refl _) H.keeps fun j hj hin =>
    absurd (b.program.root_mem_roots hj) (hP.not_root _ hin)
  refine ⟨a, _, run_onTree hrun, ⟨⟨⟨g, hg, H.gathered [0]⟩, ?_, fun r hr hin => ?_⟩,
    ⟨⟨H.keeps.weaken fun _ hr _ _ => mem_append_left _ hr, Nat.le_refl _, fun _ _ => Nat.le_refl _,
      fun _ _ => rfl, fun _ hr => .inl hr⟩, hframed, rfl⟩, hfresh⟩, rfl, H.keeps⟩
  · simpa [hg.1] using H.nodup
  · rcases hfresh r hr with hr | hr
    · exact hP.not_root r hr hin
    · have hlt : r.index < b.program.tree.size := h.framed.root_lt hin
      omega

/-! ## Changes of bodies -/

/-- A change of a body that keeps its root, its regular expressions and what is known of it;
functions that are added may be listed in it. -/
theorem keeps_modifyBody (h : b.program.Framed b.opened) (hid : id.index < b.program.bodies.size)
    (hf : ∀ x : Body, x.Grows (f x)) (hfun : ∀ x, ∀ k ∈ (f x).functions, k ∈ x.functions ∨
      b.program.Nests b.opened id k) :
    b.Keeps [] { b with program := b.program.modifyBody id f } := by
  have hbody := b.program.body_modifyBody hid f
  have hgrows : ∀ j, (b.program.body j).Grows ((b.program.modifyBody id f).body j) := by
    intro j
    rw [hbody]
    split
    · next he => exact he ▸ hf _
    · exact ⟨rfl, Nat.le_refl _, rfl, rfl, rfl⟩
  have hsize := b.program.size_modifyBody id f
  have hle := Nat.le_of_eq hsize.symm
  have hk : b.program.tree.Keeps [] (b.program.modifyBody id f).tree := .refl h.linked []
  refine ⟨⟨.refl h.linked _, hle, fun j _ => (hgrows j).regexps_le, fun j _ => (hgrows j).root_eq,
    fun r hr => .inl ?_⟩, ⟨h.linked, h.acyclic, h.raw,
    fun j hj => hsize ▸ h.opened_lt j hj, h.sorted,
      fun i j hi hj he => ?_, fun j hj => ?_, fun j hj => ?_, fun j hj k hfk => ?_⟩, rfl⟩
  · obtain ⟨j, hj, rfl⟩ := mem_roots _ hr
    rw [(hgrows j).root_eq]
    exact b.program.root_mem_roots (hsize ▸ hj)
  · rw [(hgrows i).root_eq, (hgrows j).root_eq] at he
    exact h.root_inj i j (hsize ▸ hi) (hsize ▸ hj) he
  · exact (h.rooted j (hsize ▸ hj)).trans (hgrows j).root_eq ⟨hle, (hgrows j).regexps_le, rfl⟩ hk
      not_mem_nil
  · exact (hgrows j).untouched (h.untouched j (hsize ▸ hj))
  · rw [hsize] at hj
    have hnests : b.program.Nests b.opened j k := by
      rw [hbody] at hfk
      split at hfk
      · next he => exact he ▸ (hfun _ k hfk).elim (h.nested id hid k) fun hnew => hnew
      · exact h.nested j hj k hfk
    exact hnests.trans (hgrows k).root_eq hle hk not_mem_nil fun hin => hin

private theorem runs_modifyBody (h : b.program.Framed b.opened)
    (hid : id.index < b.program.bodies.size)
    (hf : ∀ x : Body, x.Grows (f x)) (hfun : ∀ x, (f x).functions = x.functions) :
    Runs (modifyBody id f) b fun _ b' =>
      b.Keeps [] b' ∧ b' = { b with program := b.program.modifyBody id f } :=
  Runs.modify ⟨keeps_modifyBody h hid hf fun x _ hk => .inl (hfun x ▸ hk), rfl⟩

/-- A regular expression literal knows its place in the current body. -/
theorem runs_regExp {flags : String} (h : b.Ready) :
    Runs (regExp source flags) b fun id b' => b.Leaves [] (.expr id) b' := by
  unfold regExp
  refine get_bind ?_
  refine Runs.bind (runs_modifyBody h.framed h.current_lt
    (fun x => ⟨rfl, by simp [Body.regexps], rfl, rfl, rfl⟩) fun _ => rfl) ?_
  rintro _ b1 ⟨hk1, hb1⟩
  refine get_bind ?_
  have hlen : (b1.program.body b.current).regexpTable.size - 1 < b1.limits.regexps := by
    show _ < (b1.program.body b1.current).regexps.length
    rw [hk1.current_eq, hb1, Program.body_modifyBody _ h.current_lt]
    simp [Body.regexps]
  refine (runs_onTree (hk1.ready h) (has_none _) fun f _ H => ?_).mono
    fun id b2 hb2 => hb2.1.trans hk1 fun r hr _ => hr.resolve_left not_mem_nil
  refine H.newNode.bind fun id t1 H => ?_
  refine (H.setAttr (i := 1) rfl (by simp [AttrValue.refs])).bind fun _ t2 H => ?_
  refine Runs.pure ⟨_, ⟨rfl, Forest.Values.nil.operation ⟨rfl, rfl, rfl, ?_⟩⟩,
    H.only [1] (by decide)⟩
  exact ⟨rfl, fun _ => ⟨_, rfl, hlen⟩, rfl, nofun⟩

/-- A variable is added to a statement of variables. -/
theorem runs_addVar {statement : NodeId} {init : Option NodeId} (h : b.Ready)
    (hP : b.Has ((Parts.var statement).and (.opt .expr init))) :
    Runs (addVar statement name init) b fun _ b' =>
      b.Leaves ((Parts.var statement).and (.opt .expr init)).roots (.var statement) b' := by
  unfold addVar
  refine get_bind ?_
  refine Runs.bind (runs_modifyBody h.framed h.current_lt
    (fun _ => ⟨rfl, Nat.le_refl _, rfl, rfl, rfl⟩) fun _ => rfl) ?_
  rintro _ b1 ⟨hk1, -⟩
  refine (runs_onTree (hk1.ready h) (hP.keep h hk1 fun _ _ => not_mem_nil) fun f hf H =>
    Shape.crafts_addDecl hf H).mono fun _ b2 hb2 =>
      hb2.1.trans hk1 fun r hr _ => hr.resolve_left not_mem_nil

/-! ## Opening and closing functions -/

/-- The root of a body over statements that have a property. -/
def body (id : NodeId) (property : Forest → Prop) : Parts where
  roots := [id]
  Fits limits f := ∃ l kids, f = .tree id l kids ∧ l.IsRoot ∧ kids.Made limits [] 0 .list ∧
    property kids
  mono := by
    rintro limits limits' _ ⟨l, kids, rfl, hl, hmade, hkids⟩ hle
    exact ⟨l, kids, rfl, hl, hmade.mono hle, hkids⟩

/-- A function is opened inside the current body. It has no variables and no statements yet. -/
theorem runs_beginFunction {functionType : FunctionType} {line : Nat} (h : b.Ready) :
    Runs (beginFunction name functionType line) b fun id b' =>
      b'.opened = id :: b.opened ∧ b'.program.Framed b'.opened ∧ Extends [] b b' ∧
        (b'.program.body id).vars = default := by
  unfold beginFunction
  refine get_bind ?_
  refine Runs.bind (runs_onTree h (has_none _) fun f _ H => H.newNodeAt.mono fun root t' H =>
    ⟨_, show (body root (· = .nil)).Holds _ _ from
      ⟨rfl, _, _, rfl, ⟨rfl, rfl⟩, .nil, rfl⟩, H.last⟩) ?_
  rintro root b1 ⟨⟨⟨⟨_, ⟨-, l, _, rfl, hl, -, rfl⟩, hst⟩, -, hnot⟩, hk1, hfresh⟩, hbodies, -⟩
  refine get_bind ?_
  have hroot : root ∉ b1.program.roots := hnot root mem_cons_self
  -- the root learns the position of the new body
  let id : BodyId := ⟨b1.program.bodies.size⟩
  obtain ⟨_, t2, ⟨⟩, H2⟩ :
      Runs (modify fun t => t.setFunction root id : TreeM PUnit) b1.program.tree
      fun _ t' => Workbench b1.program.tree [root] t' [.leaf root (l.withBody id)] :=
    (Workbench.start hk1.framed.linked hst (by simp)).setFunction (i := 0) rfl
  let x : Body := { id, functionType := some functionType, name, root }
  let b2 : Builder :=
    { program := { tree := b1.program.tree.setFunction root id, bodies := b1.program.bodies.push x }
      opened := id :: b1.opened }
  have hne : id ≠ .script := fun he => by
    have hlt := Nat.zero_lt_of_lt (hk1.ready h).current_lt
    exact Nat.ne_of_gt hlt (congrArg BodyId.index he)
  have hf2 : b2.program.Framed b2.opened :=
    hk1.framed.push (l := l.withBody id) H2.keeps (by simpa using hroot) hroot hl (H2.gathered [0])
      rfl ⟨rfl, rfl, (decide_eq_true hne).symm⟩
  have hbody : b2.program.body id = x := (b1.program.body_push _ x id).trans (if_pos rfl)
  have hid : id.index < b2.program.bodies.size := by simp [b2, id]
  have he2 : Extends [] b b2 := by
    have hold : ∀ j : BodyId, j.index < b.program.bodies.size →
        b2.program.body j = b.program.body j := by
      intro j hj
      have hj' : j.index < b1.program.bodies.size := hbodies ▸ hj
      rw [b1.program.body_push _ x j, if_neg (by omega), Program.body, Program.body, hbodies]
    have hnew := (hfresh root mem_cons_self).resolve_left not_mem_nil
    refine ⟨hk1.tree.trans H2.keeps fun r hr hlt _ => ?_, by simp [b2, hbodies],
      fun j hj => (hold j hj).symm ▸ Nat.le_refl _, fun j hj => by rw [hold j hj], fun r hr => ?_⟩
    · refine hr.elim (fun hr => hr) fun hr => ?_
      rw [mem_singleton.mp hr] at hlt
      omega
    · have hr' : r ∈ b.program.roots ∨ r = root := by
        simpa [roots, b2, x, hbodies] using hr
      rcases hr' with hr' | rfl
      · exact .inl hr'
      · exact .inr hnew
  let f : Body → Body := fun body => { body with
    parent := some b.current
    sourceName := b2.program.script.sourceName
    baseLine := knownLine line }
  have hk3 := keeps_modifyBody hf2 hid (f := f) (fun _ => ⟨rfl, Nat.le_refl _, rfl, rfl, rfl⟩)
    fun _ _ hk => .inl hk
  have hopen : b2.opened = id :: b.opened := congrArg (id :: ·) hk1.opened_eq
  refine ⟨id, { b2 with program := b2.program.modifyBody id f }, ?_, hopen, hk3.framed,
    he2.trans hk3.toExtends (by simp), ?_⟩
  · rw [hopen]
    rfl
  · rw [body_modifyBody _ hid, if_pos rfl, hbody]

/-- Parameters are declared before anything else. -/
theorem runs_addParams (params : List String) (h : b.Ready)
    (hvars : (b.program.body b.current).vars.paramCount =
      (b.program.body b.current).vars.names.length) :
    Runs (params.forM addParam) b fun _ b' => b.Keeps [] b' := by
  refine (Runs.forM (fun _ b' => b.Keeps [] b' ∧ (b'.program.body b'.current).vars.paramCount =
    (b'.program.body b'.current).vars.names.length) ?_ params b ⟨.refl h.framed [], hvars⟩).mono
      fun _ b' hb' => hb'.1
  rintro name _ b1 ⟨hk1, hcount⟩
  have hcur := (hk1.ready h).current_lt
  unfold addParam
  refine get_bind (lift_bind (if_pos hcount) ?_)
  refine Runs.mono (runs_modifyBody hk1.framed hcur
    (fun _ => ⟨rfl, Nat.le_refl _, rfl, rfl, rfl⟩) fun _ => rfl) ?_
  rintro _ b2 ⟨hk2, hb2⟩
  refine ⟨hk1.trans_nil hk2, ?_⟩
  rw [hk2.current_eq, hb2, body_modifyBody _ hcur, if_pos rfl]
  simp [hcount]

/-- The source text of a function changes no tree. -/
theorem runs_setSource (h : b.program.Framed b.opened) (hid : id.index < b.program.bodies.size) :
    Runs (setSource id source) b fun _ b' => b.Keeps [] b' := by
  unfold setSource
  refine get_bind (lift_bind (if_pos hid) ?_)
  exact Runs.mono (runs_modifyBody h hid (fun _ => ⟨rfl, Nat.le_refl _, rfl, rfl, rfl⟩)
    fun _ => rfl) fun _ _ hb => hb.1

/-- The statements of a body that is not listed yet may change, with other parts. -/
theorem runs_onRoot {m : TreeM Unit} {property : Forest → Prop} (h : b.program.Framed b.opened)
    (hid : id.index < b.program.bodies.size) (hfree : b.program.Unlisted id)
    (hP : b.program.Has (b.program.limits id) P)
    (hm : Crafts ((body (b.program.body id).root fun _ => True).and P) m
      fun _ => body (b.program.body id).root property) :
    Runs (onTree m) b fun _ b' => b.Keeps P.roots b' ∧ b'.program.bodies = b.program.bodies ∧
      ∃ l kids, b'.program.tree.Stands (.tree (b.program.body id).root l kids) ∧ property kids := by
  obtain ⟨l, kids, hl, hst, hmade⟩ := h.rooted id hid
  obtain ⟨f, hf, hstf⟩ := hP.holds
  have hbody : (body (b.program.body id).root fun _ => True).Holds (b.program.limits id)
      (.tree (b.program.body id).root l kids) := ⟨rfl, l, kids, rfl, hl, hmade, trivial⟩
  have hnodup : (Forest.tree (b.program.body id).root l kids ++ f).roots.Nodup := by
    rw [(hbody.pair hf).1]
    exact nodup_cons.mpr ⟨fun hin => hP.not_root _ hin (b.program.root_mem_roots hid), hP.nodup⟩
  obtain ⟨_, tree, hrun, _, ⟨-, l', kids', rfl, hl', hmade', hkids'⟩, H⟩ := hm (hbody.pair hf)
    (.start h.linked (Tree.stands_append.mpr ⟨hst, hstf⟩) hnodup)
  rw [(hbody.pair hf).1] at H
  have hst' := H.gathered [0]
  have hframed := h.retree (.refl _) H.keeps fun j hj hin => by
    rcases mem_cons.mp hin with he | hin
    · obtain rfl := h.root_inj j id hj hid he
      exact ⟨hfree, l', kids', hl', hst', hmade'⟩
    · exact absurd (b.program.root_mem_roots hj) (hP.not_root _ hin)
  refine ⟨(), _, run_onTree hrun, ⟨⟨H.keeps.weaken fun r hr _ _ => ?_, Nat.le_refl _,
    fun _ _ => Nat.le_refl _, fun _ _ => rfl, fun _ hr => .inl hr⟩, hframed, rfl⟩, rfl, l', kids',
      hst', hkids'⟩
  rcases mem_cons.mp hr with rfl | hr
  · exact mem_append_right _ (b.program.root_mem_roots hid)
  · exact mem_append_left _ hr

private theorem crafts_addStatements :
    Crafts ((body root fun _ => True).and (.list statements)) (TreeM.addChildren root statements)
      fun _ => body root fun _ => True := by
  rintro limits _ t0 used t ⟨-, _, g, rfl, ⟨-, l, kids, rfl, hl, hmade, -⟩, hg⟩ H
  refine Runs.mono (H.split.addChildren (i := 0) [1] rfl (by decide) hg.1) fun _ t' H => ?_
  exact ⟨_, ⟨rfl, l, _, rfl, hl, hmade.append hg.2, trivial⟩, H.only [0] (by decide)⟩

private theorem crafts_bindSelf :
    Crafts (body root fun _ => True) (bindSelf root name) fun _ => body root fun _ => True := by
  rintro limits _ t0 used t ⟨-, l, kids, rfl, hl, hmade, -⟩ H
  refine H.newString.bind fun bind t1 H => ?_
  refine H.newNode.bind fun self t2 H => ?_
  refine Runs.bind (H.above [1, 2] (by decide) rfl (by simp)) fun assign t3 H => ?_
  refine Runs.bind (H.above [3] (by decide) rfl (by simp)) fun pop t4 H => ?_
  refine (H.addChildToFront (i := 0) (j := 4) rfl rfl rfl (by decide)).mono fun _ t5 H => ?_
  refine ⟨_, ⟨rfl, l, _, rfl, hl, .append (.list (Forest.Values.made ?_)) hmade, trivial⟩,
    H.only [0] (by decide)⟩
  refine .operation (.list ⟨fun w marks => ?_, ?_⟩) ⟨rfl, rfl, rfl, .blank rfl⟩
  · exact .setName rfl rfl (.plain rfl nofun .nil)
  · exact Forest.Placed.operand ⟨rfl, ⟨⟨_, rfl⟩, nofun, rfl, nofun⟩, trivial,
      .leaf rfl (.blank rfl)⟩ rfl (.blank rfl)

/-- What the last statement is can be seen from the tree. -/
theorem endsInReturn_of_last (h : t.Linked) (hst : t.Stands (.tree root l kids))
    (hlast : ∃ last, t.lastChild? root = some last ∧ t.kind last = .ret) : kids.EndsInReturn := by
  have hchildren : t.children root = kids.roots := hst.1.1.2.2
  obtain ⟨last, hlast, hkind⟩ := hlast
  rw [h.last, hchildren] at hlast
  rcases kids.eq_nil_or_append_tree with rfl | ⟨front, id, l', below, rfl⟩
  · cases hlast
  · have hlabel : t.label id = l' := (Tree.spells_append.mp hst.1.2.1).2.1.2.1
    obtain rfl : id = last := by simpa using hlast
    exact ⟨front, id, l', below, rfl, by rwa [Tree.kind_eq_label, hlabel] at hkind⟩

private theorem crafts_endWithReturn :
    Crafts (body root fun _ => True) (endWithReturn root) fun _ => body root (·.EndsInReturn) := by
  rintro limits _ t0 used t ⟨-, l, kids, rfl, hl, hmade, -⟩ H
  unfold endWithReturn
  refine get_bind ?_
  extract_lets returns
  split
  · refine H.newNode.bind fun ret t1 H => ?_
    refine (H.addChildToBack (i := 0) (j := 1) rfl rfl rfl (by decide)).mono fun _ t2 H => ?_
    exact ⟨_, ⟨rfl, l, _, rfl, hl, hmade.append ⟨fun w marks _ _ => .list_of_one (.ret rfl),
      .leaf rfl (.blank rfl)⟩, kids, ret, _, .nil, rfl, rfl⟩, H.only [0] (by decide)⟩
  · next hreturns =>
    refine Runs.pure ⟨_, ⟨rfl, l, kids, rfl, hl, hmade, ?_⟩, H⟩
    refine endsInReturn_of_last H.keeps.linked (H.gathered [0]) ?_
    cases hlast : t.lastChild? root with
    | none => simp [returns, hlast] at hreturns
    | some last => exact ⟨last, rfl, by simpa [returns, hlast] using hreturns⟩

private theorem runs_functionNode {t0 : Tree} {limits : Limits} {g : Forest}
    (H : Workbench t0 used t [g]) (hid : id.index < limits.bodies)
    (hnests : limits.owner.index < id.index) :
    Runs (functionNode id root name) t fun node t' =>
      ∃ g, (Parts.expr node).Holds limits g ∧ Workbench t0 used t' [g] := by
  unfold functionNode
  refine get_bind ?_
  refine H.newNodeAt.bind fun node t1 H => ?_
  refine (H.setPayload (i := 1) rfl).bind fun _ t2 H => ?_
  refine (H.setFunction (i := 1) rfl).bind fun _ t3 H => ?_
  refine Runs.pure ⟨_, ⟨rfl, fun w marks => .function rfl rfl, .leaf rfl ?_⟩,
    H.only [1] (by decide)⟩
  refine ⟨trivial, nofun, rfl, ?_⟩
  rintro _ ⟨⟩
  exact ⟨hnests, hid⟩

private theorem runs_bindOwnName (h : b.program.Framed b.opened)
    (hid : id.index < b.program.bodies.size) (hfree : b.program.Unlisted id) :
    Runs (bindOwnName id) b fun _ b' => b.Keeps [] b' ∧ b'.program.Unlisted id := by
  unfold bindOwnName
  refine get_bind ?_
  extract_lets body
  split
  · refine Runs.bind (runs_modifyBody h hid
      (fun _ => ⟨rfl, Nat.le_refl _, rfl, rfl, rfl⟩) fun _ => rfl) ?_
    rintro _ b1 ⟨hk1, hb1⟩
    have hid1 := Nat.lt_of_lt_of_le hid hk1.bodies_le
    have hfree1 : b1.program.Unlisted id := hb1 ▸ hfree.modifyBody hid fun _ => rfl
    have hroot : (b1.program.body id).root = body.root := hk1.root_eq id hid
    rw [← hroot]
    exact Runs.mono (runs_onRoot hk1.framed hid1 hfree1 (has_none _)
      crafts_bindSelf.alone) fun _ _ hb2 => ⟨hk1.trans_nil hb2.1, hfree1.congr hb2.2.1⟩
  · exact Runs.pure ⟨.refl h [], hfree⟩

/-- The innermost function is closed over its statements. -/
theorem runs_finishFunction {rest : List BodyId} (h : b.program.Framed b.opened)
    (hopen : b.opened = id :: rest) (hrest : rest ≠ []) (hP : b.Has (.list statements)) :
    Runs (finishFunction id statements endLine) b fun node b' =>
      (b'.Has (.expr node) ∧ b.program.tree.size ≤ node.index) ∧ b'.opened = rest ∧
        b'.program.Framed b'.opened ∧ Extends statements b b' := by
  have hid : id.index < b.program.bodies.size := h.opened_lt id (by simp [hopen])
  have hsorted := h.sorted
  rw [hopen, pairwise_cons] at hsorted
  have hnot : id ∉ rest := fun hin => Nat.lt_irrefl _ (hsorted.1 id hin)
  have hfree : b.program.Unlisted id := h.unlisted (by simp [hopen])
  -- From now on the function around it is the innermost one.
  let b1 : Builder := { b with opened := rest }
  have hf1 : b1.program.Framed b1.opened :=
    h.retree (by simp [b1, hopen]) (.refl h.linked []) (by simp)
  have he1 : Extends [] b b1 := ⟨.refl h.linked _, Nat.le_refl _, fun _ _ => Nat.le_refl _,
    fun _ _ => rfl, fun _ hr => .inl hr⟩
  have hlimits : b.limits = b1.program.limits id := by simp [limits, current, hopen, b1]
  unfold finishFunction
  refine get_bind ?_
  rw [if_neg (by simp [hopen])]
  refine set_bind ?_
  extract_lets root name
  rw [hopen]
  -- The statements go below the root, and the body is told where it ends.
  refine Runs.bind (runs_onRoot (b := b1) hf1 hid hfree (hlimits ▸ hP) crafts_addStatements) ?_
  rintro _ b2 ⟨hk2, hbodies2, -⟩
  have hid2 := Nat.lt_of_lt_of_le hid hk2.bodies_le
  refine Runs.bind (runs_modifyBody hk2.framed hid2
    (fun _ => ⟨rfl, Nat.le_refl _, rfl, rfl, rfl⟩) fun _ => rfl) ?_
  rintro _ b3 ⟨hk3, hb3⟩
  have hfree3 : b3.program.Unlisted id := hb3 ▸ (hfree.congr hbodies2).modifyBody hid2 fun _ => rfl
  replace hk3 := hk2.trans_nil hk3
  have hid3 := Nat.lt_of_lt_of_le hid hk3.bodies_le
  refine (runs_bindOwnName hk3.framed hid3 hfree3).bind ?_
  rintro _ b4 ⟨hk4, hfree4⟩
  replace hk4 := hk3.trans_nil hk4
  have hid4 := Nat.lt_of_lt_of_le hid hk4.bodies_le
  have hroot4 : (b4.program.body id).root = root := hk4.root_eq id hid
  -- A return comes last.
  refine Runs.bind (hroot4 ▸ runs_onRoot hk4.framed hid4 hfree4 (has_none _)
    crafts_endWithReturn.alone) ?_
  rintro _ b5 ⟨hk5, -, l5, kids5, hst5, hreturn⟩
  replace hk5 := hk4.trans_nil hk5
  have hid5 := Nat.lt_of_lt_of_le hid hk5.bodies_le
  have hcurrent : ∀ {b' : Builder}, b'.opened = rest → b'.current ∈ rest := fun he =>
    he ▸ current_mem (he ▸ hrest)
  have hready5 : b5.Ready := ⟨hk5.framed, hk5.opened_eq ▸ hrest⟩
  -- The node of the function belongs to the function around it, which lists it.
  refine Runs.bind (runs_onTree hready5 (has_none _) fun _ _ H =>
    runs_functionNode H hid5 (hsorted.1 _ (hcurrent hk5.opened_eq))) ?_
  rintro node b6 ⟨⟨hnode, hk6, hfresh⟩, -, htree6⟩
  have hready6 := hk6.ready hready5
  have hst6 := htree6.tree hst5 not_mem_nil
  have hsize5 : b.program.tree.size ≤ b5.program.tree.size := hk5.tree.size_le
  replace hk6 := hk5.trans_nil hk6
  have hid6 := Nat.lt_of_lt_of_le hid hk6.bodies_le
  refine Runs.bind (runs_modifyBody hk6.framed hid6
    (fun _ => ⟨rfl, Nat.le_refl _, rfl, rfl, rfl⟩) fun _ => rfl) ?_
  rintro _ b7 ⟨hk7, hb7⟩
  have hready7 := hk7.ready hready6
  have hopen7 : b7.opened = rest := hk7.opened_eq.trans hk6.opened_eq
  have hnests : b7.program.Nests b7.opened b7.current id := by
    refine ⟨hsorted.1 _ (hcurrent hopen7), Nat.lt_of_lt_of_le hid6 hk7.bodies_le, hopen7 ▸ hnot, l5,
      kids5, ?_, hreturn⟩
    rw [hk7.root_eq id hid6, hk6.root_eq id hid, hb7]
    exact hst6
  have hlisted : ∀ (x : Body), ∀ k ∈ x.functions ++ [id],
      k ∈ x.functions ∨ b7.program.Nests b7.opened b7.current k := by
    intro x k hk
    rcases mem_append.mp hk with hk | hk
    · exact .inl hk
    · exact .inr (mem_singleton.mp hk ▸ hnests)
  have hk8 := keeps_modifyBody (f := fun body => { body with functions := body.functions ++ [id] })
    hk7.framed hready7.current_lt (fun _ => ⟨rfl, Nat.le_refl _, rfl, rfl, rfl⟩) hlisted
  have hk68 := hk7.trans_nil hk8
  refine get_bind (modify_bind (Runs.pure ⟨⟨hnode.keep hready6 hk68 fun _ _ => not_mem_nil, ?_⟩,
    hopen7, hk8.framed, ?_⟩))
  · have := (hfresh node mem_cons_self).resolve_left not_mem_nil
    omega
  · exact he1.trans (hk6.trans_nil hk68).toExtends fun r hr _ => hr.resolve_left not_mem_nil

/-- The script is closed over its statements, and the program is done. -/
theorem runs_finishScript
    (h : b.program.Framed b.opened) (hopen : b.opened = [.script]) (hP : b.Has (.list statements)) :
    Runs (finishScript statements endLine) b fun p _ => p.Framed [] ∧ 0 < p.bodies.size := by
  have hid : BodyId.script.index < b.program.bodies.size := h.opened_lt _ (by simp [hopen])
  have hlimits : b.limits = b.program.limits .script := by simp [limits, current, hopen]
  unfold finishScript
  refine get_bind ?_
  rw [if_neg (by simp [hopen])]
  refine get_bind ?_
  refine Runs.bind (runs_onRoot h hid (h.unlisted (by simp [hopen]))
    (hlimits ▸ hP : b.program.Has _ _) crafts_addStatements) ?_
  rintro _ b1 ⟨hk1, -⟩
  have hid1 := Nat.lt_of_lt_of_le hid hk1.bodies_le
  refine Runs.bind (runs_modifyBody hk1.framed hid1
    (fun _ => ⟨rfl, Nat.le_refl _, rfl, rfl, rfl⟩) fun _ => rfl) ?_
  rintro _ b2 ⟨hk2, -⟩
  refine get_bind (Runs.pure ⟨?_, Nat.lt_of_lt_of_le hid1 hk2.bodies_le⟩)
  exact hk2.framed.retree (nil_sublist _) (.refl hk2.framed.linked []) (by simp)

end Builder

end ScriptEngine
