import Mathlib.Data.List.Forall2
import LoxLang.Proofs.Fuel
import LoxLang.Proofs.Session.Runs

/-!
What can be seen of a session. A step of a session is the run of a source or a reset; seen of it are the
output that it writes, the diagnostics that it reports and the latches after it.
-/
namespace LoxLang

theorem Reporter.reportAll_append (r : Reporter) (ds ds' : List Diagnostic) :
    r.reportAll (ds ++ ds') = (r.reportAll ds).reportAll ds' := List.foldl_append

namespace Session

def findings (s : Session) (text : String) : List Diagnostic :=
  let front := Front.ofText s.nextId text
  if (s.reporter.reportAll front.diagnostics).hadError then
    front.diagnostics
  else
    front.diagnostics ++
      (resolve s.machine.distances front.statements).errors.map (·.diagnostic)

def reported (fuel : Nat) (text : String) (s : Session) : List Diagnostic :=
  s.findings text ++
    match s.prepare text with
    | (none, _) => []
    | (some program, t) => (interpret fuel program t.machine).1.diagnostic?.toList

def ended (s : Session) : Outcome × Machine → Option Session
  | (.exhausted, _) => none
  | (outcome, machine) =>
    some ⟨machine, s.reporter.reportAll outcome.diagnostic?.toList, s.nextId⟩

theorem runPrepared_eq (fuel : Nat) (program : List Stmt) (s : Session) :
    s.runPrepared fuel program = s.ended (interpret fuel program s.machine) := rfl

theorem ended_of_ne_exhausted (s : Session) {outcome : Outcome} (h : outcome ≠ .exhausted)
    (machine : Machine) : s.ended (outcome, machine) =
      some ⟨machine, s.reporter.reportAll outcome.diagnostic?.toList, s.nextId⟩ := by
  cases outcome with
  | exhausted => exact absurd rfl h
  | _ => rfl

theorem reporter_prepare (s : Session) (text : String) :
    (s.prepare text).2.reporter = s.reporter.reportAll (s.findings text) := by
  unfold prepare findings
  simp only
  split
  · rfl
  · rw [Reporter.reportAll_append]

/-- The diagnostics reported by a run are those that its reporter gets. -/
theorem reporter_run {fuel : Nat} {text : String} {s s' : Session} (h : s.run fuel text = some s') :
    s'.reporter = s.reporter.reportAll (s.reported fuel text) := by
  have hprepared := reporter_prepare s text
  unfold run at h
  unfold reported
  rw [Reporter.reportAll_append, ← hprepared]
  generalize s.prepare text = p at h
  obtain ⟨_ | program, t⟩ := p
  · cases h
    rfl
  · change t.ended (interpret fuel program t.machine) = some s' at h
    simp only
    generalize interpret fuel program t.machine = result at h ⊢
    obtain ⟨outcome, machine⟩ := result
    cases outcome <;> cases h <;> rfl

/-- An accepted text has nothing to report but how its program ends. -/
theorem reported_of_accepted {s : Session} {text : String} (h : Accepted text)
    (hlatch : s.reporter.hadError = false) (fuel : Nat) :
    s.reported fuel text = (interpret fuel (Front.ofText s.nextId text).statements
      (s.resolved text)).1.diagnostic?.toList := by
  have hnone : s.reporter.reportAll [] = s.reporter := rfl
  have hfindings : s.findings text = [] := by
    simp [findings, h.diagnostics, hnone, hlatch, h.errors]
  rw [reported, hfindings, prepare_of_accepted h hlatch, List.nil_append]

/-- What a run that has a result reports does not depend on its fuel. -/
theorem reported_of_le {n k : Nat} (hle : n ≤ k) {text : String} {s s' : Session}
    (h : s.run n text = some s') : s.reported k text = s.reported n text := by
  unfold run at h
  unfold reported
  generalize s.prepare text = p at h
  obtain ⟨_ | program, t⟩ := p
  · rfl
  · simp only at h ⊢
    rw [runPrepared_eq] at h
    rw [interpret_of_le hle fun m he => by rw [he] at h; cases h]

def reportedAll (fuel : Nat) : List String → Session → List Diagnostic
  | [], _ => []
  | text :: texts, s => s.reported fuel text ++ (s.run fuel text).elim [] (reportedAll fuel texts)

section

variable {n k : Nat} {texts : List String} {s s' t : Session} {text : String}

theorem runAll_cons_eq_some_iff :
    s.runAll n (text :: texts) = some t ↔
      ∃ s', s.run n text = some s' ∧ s'.runAll n texts = some t :=
  Option.bind_eq_some_iff

theorem reportedAll_cons (h : s.run n text = some s') :
    s.reportedAll n (text :: texts) = s.reported n text ++ s'.reportedAll n texts := by
  rw [reportedAll, h, Option.elim_some]

/-- Sources whose runs have results have the same results with more fuel, and report the same. -/
theorem runAll_of_le (hle : n ≤ k) (h : s.runAll n texts = some t) :
    s.runAll k texts = some t ∧ s.reportedAll k texts = s.reportedAll n texts := by
  induction texts generalizing s with
  | nil => exact ⟨h, rfl⟩
  | cons text texts ih =>
    obtain ⟨s', hrun, hrest⟩ := runAll_cons_eq_some_iff.mp h
    have hrun' := run_of_le hle hrun
    obtain ⟨hrest', hreported⟩ := ih hrest
    refine ⟨runAll_cons_eq_some_iff.mpr ⟨s', hrun', hrest'⟩, ?_⟩
    rw [reportedAll_cons hrun', reportedAll_cons hrun, reported_of_le hle hrun, hreported]

/-- One more source is run where the others have ended. -/
theorem runAll_append (h : s.runAll n texts = some s') (text : String) :
    s.runAll n (texts ++ [text]) = s'.run n text ∧
      s.reportedAll n (texts ++ [text]) = s.reportedAll n texts ++ s'.reported n text := by
  induction texts generalizing s with
  | nil =>
    cases h
    change (s'.run n text).bind (runAll n []) = _ ∧
      s'.reported n text ++ (s'.run n text).elim [] (reportedAll n []) = _
    cases s'.run n text <;> exact ⟨rfl, List.append_nil _⟩
  | cons first texts ih =>
    obtain ⟨s₁, hrun, hrest⟩ := runAll_cons_eq_some_iff.mp h
    obtain ⟨hlast, hreported⟩ := ih hrest
    refine ⟨?_, ?_⟩
    · rw [List.cons_append, runAll, hrun, Option.bind_some, hlast]
    · rw [List.cons_append, reportedAll_cons hrun, reportedAll_cons hrun, hreported,
        List.append_assoc]

/-- The diagnostics reported by all runs are those that the reporter gets. -/
theorem reporter_runAll (h : s.runAll n texts = some t) :
    t.reporter = s.reporter.reportAll (s.reportedAll n texts) := by
  induction texts generalizing s with
  | nil =>
    cases h
    rfl
  | cons text texts ih =>
    obtain ⟨s', hrun, hrest⟩ := runAll_cons_eq_some_iff.mp h
    rw [ih hrest, reporter_run hrun, reportedAll_cons hrun, Reporter.reportAll_append]

end

inductive Step
  | run (text : String)
  | reset

def after (fuel : Nat) (s : Session) : Step → Option Session
  | .run text => s.run fuel text
  | .reset => some s.reset

structure Observation where
  output : ByteArray
  diagnostics : List Diagnostic
  hadError : Bool
  hadRuntimeError : Bool

def observation (fuel : Nat) (s : Session) (step : Step) (s' : Session) : Observation where
  output := s'.machine.output.since s.machine.output.written.size
  diagnostics :=
    match step with
    | .run text => s.reported fuel text
    | .reset => []
  hadError := s'.reporter.hadError
  hadRuntimeError := s'.reporter.hadRuntimeError

def trace (fuel : Nat) : List Step → Session → Option (List Observation)
  | [], _ => some []
  | step :: steps, s => do
    let s' ← s.after fuel step
    let rest ← trace fuel steps s'
    return s.observation fuel step s' :: rest

/-- If every two steps that correspond lead from related sessions to related ones, and the same is seen
of both, the same is seen of both traces. -/
theorem trace_of_after {R : Session → Session → Prop} {S : Step → Step → Prop}
    {see : Observation → Observation} {fuel : Nat}
    (hafter : ∀ s t step step', R s t → S step step' →
      Option.Rel (fun s' t' => R s' t' ∧
          see (s.observation fuel step s') = see (t.observation fuel step' t'))
        (s.after fuel step) (t.after fuel step'))
    {steps steps' : List Step} (hsteps : List.Forall₂ S steps steps') {s t : Session} (h : R s t) :
    (s.trace fuel steps).map (List.map see) = (t.trace fuel steps').map (List.map see) := by
  -- on the steps: the traces agree as long as the sessions are related, and end together
  induction hsteps generalizing s t with
  | nil => rfl
  | @cons step step' steps steps' hstep _ ih =>
    have hrel := hafter s t step step' h hstep
    rw [trace, trace]
    generalize s.after fuel step = x at hrel ⊢
    generalize t.after fuel step' = y at hrel ⊢
    cases hrel with
    | none => rfl
    | @some s' t' h' =>
      have hrest := ih h'.1
      simp only [Option.bind_eq_bind, Option.bind_some]
      generalize s'.trace fuel steps = x at hrest ⊢
      generalize t'.trace fuel steps' = y at hrest ⊢
      cases x <;> cases y <;> simp_all

end Session

end LoxLang
