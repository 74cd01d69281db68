/-!
# Computations that come to an end

`Ends m s post` says what holds where a computation over a state comes to an end with an answer; a
computation that fails is not looked at. It makes sense over every monad in which a computation
gives an answer only if all its steps do.
-/

namespace ScriptEngine

/-- A computation gives an answer only if all its steps do. -/
class Stepwise (n : Type → Type) [Monad n] : Prop where
  exists_of_bind {α β : Type} {x : n α} {f : α → n β} {b : β} :
    x >>= f = pure b → ∃ a, x = pure a ∧ f a = pure b
  pure_inj {α : Type} {a b : α} : (pure a : n α) = pure b → a = b

instance {ε : Type} : Stepwise (Except ε) where
  exists_of_bind {_ _ x _ _} h := by
    cases x with
    | error e => cases h
    | ok a => exact ⟨a, rfl, h⟩
  pure_inj h := Except.ok.inj h

instance {ε ε' : Type} : Stepwise (ExceptT ε (Except ε')) where
  exists_of_bind {_ _ x f b} h := by
    change x.run >>= _ = Except.ok (Except.ok b) at h
    obtain ⟨r, hr, h⟩ := Stepwise.exists_of_bind h
    cases r with
    | error e => cases h
    | ok a => exact ⟨a, hr, h⟩
  pure_inj h := Except.ok.inj (Except.ok.inj h)

section

variable {σ α β γ : Type} {n : Type → Type} [Monad n]

/-- Where the computation comes to an end, the outcome has a property. -/
def Ends (m : StateT σ n α) (s : σ) (post : α → σ → Prop) : Prop :=
  ∀ a s', m.run s = pure (a, s') → post a s'

/-- The computation leaves a part of the state as it is. -/
def Steady (view : σ → γ) (m : StateT σ n α) : Prop := ∀ s, Ends m s fun _ s' => view s' = view s

variable {m : StateT σ n α} {f : α → StateT σ n β} {s : σ} {p q : α → σ → Prop} {r : β → σ → Prop}
  {view : σ → γ}

namespace Ends

/-- What holds at the end may be weakened. -/
theorem mono (hm : Ends m s p) (h : ∀ a s', p a s' → q a s') : Ends m s q := fun a s' hrun =>
  h a s' (hm a s' hrun)

/-- The state is read first. -/
theorem get_bind [LawfulMonad n] {g : σ → StateT σ n β} (h : Ends (g s) s r) :
    Ends (get >>= g) s r := by
  intro b s' hrun
  rw [StateT.run_bind, StateT.run_get, pure_bind] at hrun
  exact h b s' hrun

/-- The state is set first. -/
theorem set_bind [LawfulMonad n] {g : PUnit → StateT σ n β} {s' : σ} (h : Ends (g ()) s' r) :
    Ends (set s' >>= g) s r := by
  intro b s'' hrun
  rw [StateT.run_bind, StateT.run_set, pure_bind] at hrun
  exact h b s'' hrun

/-- The state is changed first. -/
theorem modify_bind [LawfulMonad n] {g : PUnit → StateT σ n β} {k : σ → σ}
    (h : Ends (g ()) (k s) r) : Ends (modify k >>= g) s r := by
  intro b s' hrun
  rw [StateT.run_bind, StateT.run_modify, pure_bind] at hrun
  exact h b s' hrun

/-- A step that is left out if a condition fails. -/
theorem ite {c : Prop} [Decidable c] {m' : StateT σ n α} (h : c → Ends m s p)
    (h' : ¬ c → Ends m' s p) : Ends (if c then m else m') s p := by
  split
  · next hc => exact h hc
  · next hc => exact h' hc

variable [Stepwise n]

/-- A step and then the rest. -/
theorem bind (hm : Ends m s p) (hf : ∀ a s', p a s' → Ends (f a) s' r) : Ends (m >>= f) s r := by
  intro b s'' hrun
  obtain ⟨⟨a, s'⟩, hstep, hrest⟩ := Stepwise.exists_of_bind hrun
  exact hf a s' (hm a s' hstep) b s'' hrest

theorem pure {a : α} (h : p a s) : Ends (Pure.pure a : StateT σ n α) s p := by
  intro b s' hrun
  obtain ⟨rfl, rfl⟩ := Prod.mk.inj (Stepwise.pure_inj hrun)
  exact h

theorem modify {k : σ → σ} {p : PUnit → σ → Prop} (h : p () (k s)) :
    Ends (modify k : StateT σ n PUnit) s p := by
  intro b s' hrun
  obtain ⟨rfl, rfl⟩ := Prod.mk.inj (Stepwise.pure_inj hrun)
  exact h

end Ends

namespace Steady

/-- A step that only reads the state. -/
theorem get_bind [LawfulMonad n] {g : σ → StateT σ n β} (h : ∀ s, Steady view (g s)) :
    Steady view (get >>= g) := fun s => Ends.get_bind (h s s)

/-- Both branches keep the view. -/
theorem ite {c : Prop} [Decidable c] {m m' : StateT σ n α} (hm : Steady view m)
    (hm' : Steady view m') : Steady view (if c then m else m') :=
  fun s => Ends.ite (fun _ => hm s) fun _ => hm' s

variable [Stepwise n]

theorem pure (a : α) : Steady view (Pure.pure a : StateT σ n α) := fun _ => Ends.pure rfl

/-- Both steps keep the view. -/
theorem bind (hm : Steady view m) (hf : ∀ a, Steady view (f a)) : Steady view (m >>= f) :=
  fun s => (hm s).bind fun a s' h => (hf a s').mono fun _ _ h' => h'.trans h

/-- A step that leaves it as it is, and then the rest. -/
theorem ends_bind (hm : Steady view m) (hf : ∀ a s', view s' = view s → Ends (f a) s' r) :
    Ends (m >>= f) s r := (hm s).bind hf

/-- A change keeps what it does not touch. -/
theorem modify {k : σ → σ} (h : ∀ s, view (k s) = view s) :
    Steady view (modify k : StateT σ n PUnit) := fun s => Ends.modify (h s)

/-- A loop keeps what its body keeps. -/
theorem forM {g : α → StateT σ n PUnit} (h : ∀ a, Steady view (g a)) (as : List α) :
    Steady view (as.forM g) := by
  induction as with
  | nil => exact Steady.pure _
  | cons a as ih => exact (h a).bind fun _ => ih

end Steady

end

namespace Steady

variable {σ ε α γ : Type} {view : σ → γ}

/-- A step that may fail and does not touch the state. -/
theorem lift (e : Except ε α) : Steady view (liftM e : StateT σ (Except ε) α) := by
  intro s a s' hrun
  cases e with
  | error e => cases hrun
  | ok a =>
    cases hrun
    rfl

end Steady

end ScriptEngine
