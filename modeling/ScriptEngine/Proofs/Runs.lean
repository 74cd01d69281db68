/-!
# Computations that succeed

`Runs m s post` says that a computation over a state succeeds from `s` and ends with an answer and a
state of which `post` holds. The rules follow the structure of a computation: what is proved of a
step is used by the steps behind it.
-/

namespace ScriptEngine

variable {σ ε α β : Type}

/-- The computation succeeds from a state, and the outcome has a property. -/
def Runs (m : StateT σ (Except ε) α) (s : σ) (post : α → σ → Prop) : Prop :=
  ∃ a s', m.run s = .ok (a, s') ∧ post a s'

namespace Runs

variable {m : StateT σ (Except ε) α} {f : α → StateT σ (Except ε) β} {s : σ}
  {p q : α → σ → Prop} {r : β → σ → Prop}

/-- What holds at the end may be weakened. -/
theorem mono (hm : Runs m s p) (h : ∀ a s', p a s' → q a s') : Runs m s q := by
  obtain ⟨a, s', hrun, hp⟩ := hm
  exact ⟨a, s', hrun, h a s' hp⟩

/-- A step and then the rest. -/
theorem bind (hm : Runs m s p) (hf : ∀ a s', p a s' → Runs (f a) s' r) : Runs (m >>= f) s r := by
  obtain ⟨a, s', hrun, hp⟩ := hm
  obtain ⟨b, s'', hrun', hr⟩ := hf a s' hp
  refine ⟨b, s'', ?_, hr⟩
  rw [StateT.run_bind, hrun]
  exact hrun'

/-- A result that is given. -/
theorem pure {a : α} (h : p a s) : Runs (Pure.pure a : StateT σ (Except ε) α) s p :=
  ⟨a, s, rfl, h⟩

theorem map {g : α → β} (hm : Runs m s fun a s' => r (g a) s') : Runs (g <$> m) s r := by
  obtain ⟨a, s', hrun, hr⟩ := hm
  refine ⟨g a, s', ?_, hr⟩
  rw [StateT.run_map, hrun]
  rfl

/-- A step that only reads the state. -/
theorem get_bind {g : σ → StateT σ (Except ε) β} (h : Runs (g s) s r) : Runs (get >>= g) s r := h

/-- The state is set first. -/
theorem set_bind {g : PUnit → StateT σ (Except ε) β} {s' : σ} (h : Runs (g ()) s' r) :
    Runs (set s' >>= g) s r := h

/-- The state is changed first. -/
theorem modify_bind {g : PUnit → StateT σ (Except ε) β} {k : σ → σ}
    (h : Runs (g ()) (k s) r) : Runs (modify k >>= g) s r := h

theorem modify {k : σ → σ} {p : PUnit → σ → Prop} (h : p () (k s)) :
    Runs (modify k : StateT σ (Except ε) PUnit) s p := ⟨(), k s, rfl, h⟩

theorem pure_bind {a : α} (h : Runs (f a) s r) : Runs (Pure.pure a >>= f) s r := h

/-- A step that may fail and does not touch the state. -/
theorem lift_bind {e : Except ε α} {a : α} (he : e = .ok a) (h : Runs (f a) s r) :
    Runs (liftM e >>= f) s r := by
  subst he
  exact h

/-- A step that is left out if a condition fails, before the rest. -/
theorem ite_bind {c : Prop} [Decidable c] {m : StateT σ (Except ε) Unit}
    {k : Unit → StateT σ (Except ε) β} {p : Unit → σ → Prop}
    (hm : Runs (if c then m else Pure.pure ()) s p) (hk : ∀ s', p () s' → Runs (k ()) s' r) :
    Runs (if c then m >>= k else k ()) s r := by
  split
  · next hc =>
    rw [if_pos hc] at hm
    exact hm.bind fun _ s' hp => hk s' hp
  · next hc =>
    rw [if_neg hc] at hm
    obtain ⟨_, _, ⟨⟩, hp⟩ := hm
    exact hk s hp

/-- A loop over a list: what holds of the part behind is established for the part in front. -/
theorem forM {γ : Type} {g : γ → StateT σ (Except ε) PUnit} (inv : List γ → σ → Prop)
    (hstep : ∀ c cs s, inv (c :: cs) s → Runs (g c) s fun _ s' => inv cs s') :
    ∀ (cs : List γ) (s : σ), inv cs s → Runs (cs.forM g) s fun _ s' => inv [] s' := by
  intro cs
  induction cs with
  | nil => intro s h; exact Runs.pure h
  | cons c cs ih =>
    intro s h
    exact (hstep c cs s h).bind fun _ s' h' => ih s' h'

end Runs

end ScriptEngine
