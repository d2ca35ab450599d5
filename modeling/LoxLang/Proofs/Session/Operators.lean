import LoxLang.Proofs.Parsing.WellFormed
import LoxLang.Proofs.Running.WellFormed
import LoxLang.Proofs.Session.Runs

/-!
The operators that trees are read with are the operators that they are run with. Trees are run with errors or
without, with distances recorded for their uses or without, and after whatever other trees: functions that are
called have been read as well. Main statement: `operators_known`.
-/
namespace LoxLang

open Terms

/-- Machines that trees have been run on which were read from tokens. -/
inductive Machine.Handled : Machine → Prop
  | start (output : Stream) (clock : Clock) : Handled (.start output clock)
  | record {m : Machine} (h : Handled m) (distances : Distances) :
      Handled { m with distances := distances }
  | interpret {m : Machine} (h : Handled m) (nextId : ReferenceId) (tokens : List Token) (fuel : Nat) :
      Handled (interpret fuel (parse nextId tokens).statements m).2
  /-- A statement alone, of which the rest of its tree may have been run or not. -/
  | execute {m : Machine} (h : Handled m) {nextId : ReferenceId} {tokens : List Token} {s : Stmt}
      (hs : s ∈ (parse nextId tokens).statements) (fuel : Nat) : Handled (reached (execute fuel s m))

theorem keeps_interpret (nextId : ReferenceId) (tokens : List Token) (fuel : Nat) :
    wellFormed.Keeps (fun _ => True) (executeAll fuel (parse nextId tokens).statements) :=
  (operating fuel).executeAll _ (Parsing.wellFormed_parse nextId tokens)

theorem keeps_execute {nextId : ReferenceId} {tokens : List Token} {s : Stmt}
    (hs : s ∈ (parse nextId tokens).statements) (fuel : Nat) :
    wellFormed.Keeps (fun _ => True) (execute fuel s) :=
  (operating fuel).execute s (Stmt.wellFormedAll_iff.mp (Parsing.wellFormed_parse nextId tokens) s hs)

/-- All functions of such a machine stem from well-formed declarations. -/
theorem Machine.Handled.wellFormed {m : Machine} (h : m.Handled) : m.WellFormed := by
  induction h with
  | start output clock => exact (holds_start output clock trivial).wellFormed
  | record _ distances ih => exact ih
  | interpret _ nextId tokens fuel ih =>
    rw [← reached_executeAll]
    exact (keeps_interpret nextId tokens fuel).wellFormed_reached ih
  | execute _ hs fuel ih => exact (keeps_execute hs fuel).wellFormed_reached ih

/-- A program that ends with a runtime error has been broken off by it. -/
theorem executeAll_of_runtime {fuel : Nat} {program : List Stmt} {m : Machine} {e : RuntimeError}
    (h : (interpret fuel program m).1 = .runtime e) :
    ∃ m', executeAll fuel program m = .error (.runtime e) m' := by
  unfold interpret at h
  cases hrun : executeAll fuel program m with
  | ok u m' =>
    rw [hrun] at h
    simp only [Machine.flush] at h
    split at h <;> cases h
  | error signal m' =>
    rw [hrun] at h
    cases signal with
    | runtime e' =>
      cases h
      exact ⟨m', rfl⟩
    | returned v =>
      simp only [Machine.flush] at h
      split at h <;> cases h
    | _ => cases h

namespace Session

theorem handled_prepare {s : Session} (h : s.machine.Handled) (text : String) :
    (s.prepare text).2.machine.Handled := by
  have hprepared := prepared s text
  generalize s.prepare text = result at hprepared
  cases hprepared with
  | unread reporter => exact h
  | unresolved reporter hread => exact h.record _
  | ready hread hresolved hlatch => exact h.record _

/-- A session that runs a text has run trees that were read from tokens. -/
theorem handled_run {s s' : Session} {fuel : Nat} {text : String} (h : s.machine.Handled)
    (hrun : s.run fuel text = some s') : s'.machine.Handled := by
  have hprepared := prepared s text
  have hready := handled_prepare h text
  rcases prepare_of_run hrun with hprepare | ⟨program, ready, hprepare, hmachine⟩
  · rw [hprepare] at hready
    exact hready
  · rw [hprepare] at hready hprepared
    cases hprepared with
    | ready hread hresolved hlatch =>
      rw [hmachine]
      exact hready.interpret s.nextId ((scan text).filterMap Item.token?) fuel

theorem Reachable.handled {output diagnostics : Stream} {s : Session}
    (h : Reachable output diagnostics s) : s.machine.Handled := by
  induction h with
  | start clock => exact .start output clock
  | run _ hrun ih => exact handled_run ih hrun
  | reset _ ih => exact ih

/-- Every tree that is read, also one with errors, has in each place only tokens of the kinds that the place is
for. Whatever trees have been run on a machine, no tree that is run next breaks off because of an operator that
there is none of, and no statement of it does; among these machines are those of all sessions. An operator
that decides by its left operand is `and` unless it is `or`. -/
theorem operators_known :
    (∀ nextId tokens, Stmt.WellFormedAll (parse nextId tokens).statements) ∧
    (∀ m : Machine, m.Handled → ∀ nextId tokens fuel,
      (∀ e, (interpret fuel (parse nextId tokens).statements m).1 = .runtime e → ¬e.BlamesOperator) ∧
      ∀ s ∈ (parse nextId tokens).statements, ∀ e m',
        execute fuel s m = .error (.runtime e) m' → ¬e.BlamesOperator) ∧
    (∀ output diagnostics s, Reachable output diagnostics s → s.machine.Handled) ∧
    ∀ left operator right, (Expr.logical left operator right).WellFormed →
      operator.kind ≠ .keyword .orKw → operator.kind = .keyword .andKw ∧
        ∀ v : Value, decides operator.kind v = !v.isTruthy := by
  refine ⟨Parsing.wellFormed_parse, ?_, fun output diagnostics s h => h.handled, ?_⟩
  · intro m hm nextId tokens fuel
    constructor
    · intro e hruntime
      obtain ⟨m', herror⟩ := executeAll_of_runtime hruntime
      exact (keeps_interpret nextId tokens fuel).not_blamesOperator hm.wellFormed herror
    · intro s hs e m' herror
      exact (keeps_execute hs fuel).not_blamesOperator hm.wellFormed herror
  · intro left operator right h hor
    have hand := h.1.resolve_right hor
    exact ⟨hand, fun v => by simp only [decides, hand]⟩

/-- A function with a sign is kept from a line before; it is called by a tree that has been read with an error. -/
theorem operators_known_keptFunction :
    let tokens := (scan "print !f(\"a\") or nil; nil + ;").filterMap Item.token?
    ∃ s, (start .unlimited .unlimited fun _ => .ok 0).run 20 "fun f(x) \x7b return -x; \x7d" = some s ∧
      (parse 0 tokens).errors.length = 1 ∧ ∃ e, (interpret 20 (parse 0 tokens).statements
        s.machine).1 = .runtime e ∧ e.message = "Operand must be a number." ∧ ¬e.BlamesOperator := by
  intro tokens
  have hkept : ((start .unlimited .unlimited fun _ => .ok 0).run 20 "fun f(x) \x7b return -x; \x7d").map
      (fun s => (interpret 20 (parse 0 tokens).statements s.machine).1.diagnostic?) =
        some (some (RuntimeError.diagnostic ⟨1, .operandNotNumber⟩)) := by
    decide +kernel
  obtain ⟨s, hrun, hend⟩ := Option.map_eq_some_iff.mp hkept
  cases hruntime : (interpret 20 (parse 0 tokens).statements s.machine).1 with
  | runtime e =>
    rw [hruntime] at hend
    have hmessage : e.message = "Operand must be a number." :=
      (Diagnostic.runtime.inj (Option.some.inj hend)).2
    have hhandled := operators_known.2.2.1 .unlimited .unlimited s (.run (.start fun _ => .ok 0) hrun)
    have hknown := (operators_known.2.1 s.machine hhandled 0 tokens 20).1 e hruntime
    exact ⟨s, hrun, by decide +kernel, e, hruntime, hmessage, hknown⟩
  | finished | output f | exhausted =>
    rw [hruntime] at hend
    cases hend

end Session

end LoxLang
