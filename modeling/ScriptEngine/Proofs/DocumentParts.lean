import ScriptEngine.Proofs.BuilderFrames
import ScriptEngine.Document.Build

/-!
# Parts of a program under construction

While a document is played into a builder, the nodes of expressions and statements that are done lie
about as pieces, until the statement around them takes them up. `Document.Makes P m Q` says that a
computation uses up the parts `P` and leaves the parts `Q`, and that it touches nothing else.
-/

namespace ScriptEngine

open Forest

variable {limits : Limits} {f g : Forest}

namespace Parts

/-- The nodes of one statement: labels and a node. -/
def statement (nodes : List NodeId) : Parts where
  roots := nodes
  Fits limits f := ∃ labels g, f = labelForest labels ++ g ∧ g.Made limits [] 0 .one ∧
    (labelForest labels).Placed limits Token.isFree Token.isFree
  mono := by
    rintro limits limits' _ ⟨labels, g, rfl, hg, hp⟩ hle
    exact ⟨labels, g, rfl, hg.mono hle, hp.mono hle⟩

/-- One node is a statement. -/
theorem Holds.statement {id : NodeId} (h : (node id).Holds limits f) :
    (Parts.statement [id]).Holds limits f := ⟨h.1, [], f, rfl, h.2, trivial⟩

/-- A statement that is one node has no labels. -/
theorem Holds.of_statement {id : NodeId} (h : (Parts.statement [id]).Holds limits f) :
    (node id).Holds limits f := by
  obtain ⟨hroots, labels, g, rfl, hg, -⟩ := h
  obtain ⟨r, l, kids, rfl⟩ := (hg.built 0 (fun _ _ => True) nofun fun _ _ _ => trivial).one_eq_tree
  cases labels with
  | nil => exact ⟨hroots, hg⟩
  | cons a rest =>
    have := congrArg List.length hroots
    simp [labelForest, Parts.statement] at this

/-- A statement is a list of nodes. -/
theorem Holds.list_of_statement {nodes : List NodeId} (h : (Parts.statement nodes).Holds limits f) :
    (list nodes).Holds limits f := by
  obtain ⟨hroots, labels, g, rfl, hg, hp⟩ := h
  refine ⟨hroots, fun w marks hs hm => ?_, placed_append.mpr ⟨hp, hg.placed⟩⟩
  have hone := hg.built w marks hs fun t d h => hm t d (marks_append.mpr (.inr h))
  obtain ⟨r, l, kids, rfl⟩ := hone.one_eq_tree
  exact .labelled hone .nil

end Parts

namespace Document

variable {α β : Type}

/-- At every depth the computation ends, and if it is not refused the outcome has a property. -/
def Builds (m : DocumentM α) (b : Builder) (post : α → Builder → Prop) : Prop :=
  ∀ nesting, Runs m.run ⟨b, nesting⟩ fun r player => ∀ a, r = .ok a → post a player.builder

namespace Builds

variable {m : DocumentM α} {f : α → DocumentM β} {b : Builder} {p q : α → Builder → Prop}
  {r : β → Builder → Prop}

private theorem mono (hm : Builds m b p) (h : ∀ a b', p a b' → q a b') :
    Builds m b q := fun nesting =>
  (hm nesting).mono fun _ player hp a ha => h a player.builder (hp a ha)

/-- One step and then what uses its result. -/
theorem bind (hm : Builds m b p) (hf : ∀ a b', p a b' → Builds (f a) b' r) :
    Builds (m >>= f) b r := by
  intro nesting
  rw [ExceptT.run_bind]
  refine (hm nesting).bind fun x player hp => ?_
  cases x with
  | ok a => exact hf a player.builder (hp a rfl) player.nesting
  | error e => exact Runs.pure (by simp)

private theorem pure {a : α} (h : p a b) : Builds (Pure.pure a) b p := fun _ =>
  Runs.pure (by rintro _ ⟨⟩; exact h)

private theorem throw {e : BuildError} : Builds (MonadExcept.throw e : DocumentM α) b p := fun _ =>
  Runs.pure (by simp)

/-- Work of the builder, which reads no document. -/
theorem onBuilder {m : BuildM α} (hm : Runs m b p) : Builds (onBuilder m) b p := by
  intro nesting
  obtain ⟨a, b', hrun, hp⟩ := hm
  have hlift : (Document.onBuilder m).run.run ⟨b, nesting⟩ =
      m.run b >>= fun step => .ok (.ok step.1, ⟨step.2, nesting⟩) := rfl
  refine ⟨.ok a, ⟨b', nesting⟩, by rw [hlift, hrun]; rfl, ?_⟩
  rintro _ ⟨⟩
  exact hp

/-- The depth does not matter, so neither does a construct around the computation. -/
theorem deeper (hm : Builds m b p) : Builds (deeper m) b p := fun nesting =>
  .modify_bind ((hm (nesting + 1)).bind fun _ _ hp => .modify_bind (Runs.pure hp))

private theorem afresh (hm : Builds m b p) : Builds (afresh m) b p := fun _ =>
  .get_bind (.modify_bind ((hm 0).bind fun _ _ hp => .modify_bind (Runs.pure hp)))

end Builds

/-- The computation uses up some parts and leaves others, and it touches nothing else. -/
def Makes (P : Parts) (m : DocumentM α) (Q : α → Parts) : Prop :=
  ∀ b : Builder, b.Ready → b.Has P → Builds m b fun a b' => b.Leaves P.roots (Q a) b'

namespace Makes

variable {P P' F : Parts} {m : DocumentM α} {f : α → DocumentM β} {Q : α → Parts} {R : β → Parts}

/-- One step and then what uses its result. -/
theorem bind (hm : Makes P m Q) (hf : ∀ a, Makes (Q a) (f a) R) : Makes P (m >>= f) R := by
  intro b hb hP
  refine (hm b hb hP).bind fun a b1 h1 => ?_
  refine (hf a b1 (h1.keeps.ready hb) h1.has).mono fun c b2 h2 =>
    h2.trans h1.keeps fun r hr hlt => ?_
  exact hr.elim id fun hr => (h1.fresh r hr).resolve_right (by omega)

/-- Other parts lie beside. -/
theorem frame (F : Parts) (hm : Makes P m Q) : Makes (F.and P) m fun a => F.and (Q a) := by
  intro b hb hFP
  obtain ⟨⟨_, ⟨-, x, y, rfl, hx, hy⟩, hst⟩, hnodup, hroot⟩ := hFP
  obtain ⟨hstx, hsty⟩ := Tree.stands_append.mp hst
  obtain ⟨hndF, hndP, hdis⟩ := List.nodup_append.mp hnodup
  have hF : b.Has F := ⟨⟨x, hx, hstx⟩, hndF, fun r hr => hroot r (List.mem_append_left _ hr)⟩
  have hP : b.Has P := ⟨⟨y, hy, hsty⟩, hndP, fun r hr => hroot r (List.mem_append_right _ hr)⟩
  refine (hm b hb hP).mono fun a b1 ⟨hQ, hk, hnew⟩ => ?_
  have hF1 := hF.keep hb hk fun r hr hin => hdis r hr r hin rfl
  obtain ⟨x', hx', hstx'⟩ := hF1.holds
  obtain ⟨y', hy', hsty'⟩ := hQ.holds
  refine ⟨⟨⟨_, hx'.pair hy', Tree.stands_append.mpr ⟨hstx', hsty'⟩⟩, ?_, fun r hr => ?_⟩,
    hk.weaken fun r hr _ => List.mem_append_right _ hr, fun r hr => ?_⟩
  · refine List.nodup_append.mpr ⟨hndF, hQ.nodup, ?_⟩
    rintro r hrF _ hrQ rfl
    rcases hnew r hrQ with hin | hin
    · exact hdis r hrF r hin rfl
    · have := hF.bound hrF
      omega
  · exact (List.mem_append.mp hr).elim (hF1.not_root r) (hQ.not_root r)
  · rcases List.mem_append.mp hr with hr | hr
    · exact .inl (List.mem_append_left _ hr)
    · exact (hnew r hr).imp_left (List.mem_append_right _ ·)

private theorem of (hm : Makes P m Q) (hP : ∀ limits f, P'.Holds limits f → P.Holds limits f) :
    Makes P' m Q := by
  rintro b hb ⟨⟨f, hf, hst⟩, hnodup, hroot⟩
  have hroots : P'.roots = P.roots := hf.1.symm.trans (hP _ _ hf).1
  rw [hroots] at hnodup hroot ⊢
  exact hm b hb ⟨⟨f, hP _ _ hf, hst⟩, hnodup, hroot⟩

/-- Something is made beside what is there. -/
theorem more (hm : Makes .none m Q) : Makes P m fun a => P.and (Q a) := by
  refine (hm.frame P).of fun limits f hf => ?_
  have hboth := hf.pair (Parts.holds_none limits)
  rwa [append_nil] at hboth

/-- Parts may be read in another way. -/
theorem pure {a : α} (h : ∀ limits f, P.Holds limits f → (Q a).Holds limits f) :
    Makes P (Pure.pure a) Q := by
  refine Makes.of (P := Q a) (fun b hb hQ => Builds.pure ?_) h
  exact ⟨hQ, .refl hb.framed _, fun r hr => .inl hr⟩

theorem map {g : α → β} (hm : Makes P m fun a => R (g a)) : Makes P (g <$> m) R := by
  rw [← bind_pure_comp]
  exact hm.bind fun a => pure fun _ _ h => h

theorem throw {e : BuildError} : Makes P (MonadExcept.throw e) Q := fun _ _ _ => Builds.throw

/-- A computation on the tree. -/
theorem shape {m : TreeM α} (hm : Crafts P m Q) : Makes P (Document.shape m) Q := fun _ hb hP =>
  Builds.onBuilder ((Builder.runs_onTree hb hP fun _ hf H => hm hf H).mono fun _ _ h => h.1)

/-- A computation on the tree that may refuse the source. -/
theorem checkedShape {m : TreeM (Except SyntaxComplaint NodeId)} {Q : NodeId → Parts}
    (hm : Crafts P m (.checked Q)) : Makes P (Document.checkedShape m) Q := by
  refine (shape hm).bind fun r => ?_
  cases r with
  | ok id => exact pure fun _ _ h => h
  | error complaint => exact throw

/-- A step that looks at the player. -/
theorem get_bind {f : Player → DocumentM α} (hf : ∀ player, Makes P (f player) Q) :
    Makes P (get >>= f) Q := fun b hb hP nesting => hf ⟨b, nesting⟩ b hb hP nesting

theorem deeper (hm : Makes P m Q) : Makes P (Document.deeper m) Q := fun b hb hP =>
  (hm b hb hP).deeper

theorem afresh (hm : Makes P m Q) : Makes P (Document.afresh m) Q := fun b hb hP =>
  (hm b hb hP).afresh

end Makes

end Document

end ScriptEngine
