/-!
Steps that commute with a change of states. If the states, errors and results of a step are changed in
some way that the step does not look at, the step on changed states is the changed step. The relation
is closed under the ways in which steps are put together.
-/
namespace LoxLang

variable {ε σ α β α' β' : Type} {onState : σ → σ} {onError : ε → ε}

def Changed (onState : σ → σ) (onError : ε → ε) (onResult : α → α') :
    EStateM.Result ε σ α → EStateM.Result ε σ α'
  | .ok a s => .ok (onResult a) (onState s)
  | .error e s => .error (onError e) (onState s)

/-- On changed states the second step gives what the first one gives, changed. -/
def Commutes (onState : σ → σ) (onError : ε → ε) (onResult : α → α') (p : EStateM ε σ α)
    (p' : EStateM ε σ α') : Prop :=
  ∀ s, p' (onState s) = Changed onState onError onResult (p s)

namespace Commutes

variable {p : EStateM ε σ α} {p' : EStateM ε σ α'} {onResult : α → α'} {onResult' : β → β'}
  {f : α → EStateM ε σ β} {f' : α' → EStateM ε σ β'}

theorem bind (hp : Commutes onState onError onResult p p')
    (hf : ∀ a, Commutes onState onError onResult' (f a) (f' (onResult a))) :
    Commutes onState onError onResult' (p >>= f) (p' >>= f') := by
  intro s
  simp only [Bind.bind, EStateM.bind]
  rw [hp s]
  cases p s with
  | ok a s => exact hf a s
  | error e s => rfl

theorem pure (a : α) : Commutes onState onError onResult (Pure.pure a) (Pure.pure (onResult a)) :=
  fun _ => rfl

theorem map (hp : Commutes onState onError onResult p p') {g : α → β} {g' : α' → β'}
    (hg : ∀ a, g' (onResult a) = onResult' (g a)) :
    Commutes onState onError onResult' (g <$> p) (g' <$> p') :=
  bind hp fun a => by rw [hg]; exact pure (g a)

theorem throw (e : ε) :
    Commutes onState onError onResult (throw e) (throw (onError e)) := fun _ => rfl

theorem ite {c c' : Prop} [Decidable c] [Decidable c'] {q : EStateM ε σ α} {q' : EStateM ε σ α'}
    (h : c' ↔ c) (hp : Commutes onState onError onResult p p')
    (hq : Commutes onState onError onResult q q') :
    Commutes onState onError onResult (if c then p else q) (if c' then p' else q') := by
  by_cases hc : c
  · rw [if_pos hc, if_pos (h.mpr hc)]
    exact hp
  · rw [if_neg hc, if_neg fun hc' => hc (h.mp hc')]
    exact hq

end Commutes

end LoxLang
