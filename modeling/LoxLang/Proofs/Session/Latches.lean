import LoxLang.Proofs.Session.Reports
import LoxLang.Proofs.Stream.Limited

/-!
What the stream of diagnostics takes and what the latches tell. A reporter only ever writes to its
stream, so a stream that runs out of room changes nothing but the text that is kept, of which it keeps
the first bytes. The latches are a function of what has been done to the reporter. Main statement:
`Session.latches_of_history`.
-/
namespace LoxLang

namespace Reporter

inductive Operation
  | report (d : Diagnostic)
  | reset

def apply (r : Reporter) : Operation → Reporter
  | .report d => r.report d
  | .reset => r.reset

def applyAll (r : Reporter) (ops : List Operation) : Reporter := ops.foldl apply r

theorem applyAll_append (r : Reporter) (ops ops' : List Operation) :
    r.applyAll (ops ++ ops') = (r.applyAll ops).applyAll ops' := List.foldl_append

theorem applyAll_report (r : Reporter) (ds : List Diagnostic) :
    r.applyAll (ds.map .report) = r.reportAll ds := by
  unfold applyAll reportAll
  rw [List.foldl_map]
  rfl

/-- A static error has been reported, and no reset came after it. -/
def StaticSinceReset (ops : List Operation) : Prop :=
  ∃ before d later, ops = before ++ .report d :: later ∧ d.isStatic = true ∧ .reset ∉ later

/-- A runtime error or a failure of the output has been reported. -/
def RuntimeEver (ops : List Operation) : Prop := ∃ d, .report d ∈ ops ∧ d.isStatic = false

structure Remembers (r : Reporter) (ops : List Operation) : Prop where
  hadError : r.hadError = true ↔ StaticSinceReset ops
  hadRuntimeError : r.hadRuntimeError = true ↔ RuntimeEver ops

section

variable {r : Reporter} {op : Operation} {ops : List Operation} {d : Diagnostic} {n : Nat}

/-- The first operation counts if it reports a static error and no reset comes after it. -/
theorem staticSinceReset_cons_iff : StaticSinceReset (op :: ops) ↔
    (∃ d, op = .report d ∧ d.isStatic = true ∧ .reset ∉ ops) ∨ StaticSinceReset ops := by
  constructor
  · intro h
    obtain ⟨before, d, later, heq, hstatic, hnone⟩ := h
    cases before with
    | nil =>
      obtain ⟨hop, hops⟩ := List.cons.inj heq
      exact .inl ⟨d, hop, hstatic, hops ▸ hnone⟩
    | cons op' before =>
      obtain ⟨-, hops⟩ := List.cons.inj heq
      exact .inr ⟨before, d, later, hops, hstatic, hnone⟩
  · intro h
    rcases h with ⟨d, hop, hstatic, hnone⟩ | ⟨before, d, later, hops, hstatic, hnone⟩
    · exact ⟨[], d, ops, congrArg (· :: ops) hop, hstatic, hnone⟩
    · exact ⟨op :: before, d, later, congrArg (op :: ·) hops, hstatic, hnone⟩

/-- The first latch was set before and has not been reset, or a static error came after. -/
theorem hadError_applyAll (r : Reporter) (ops : List Operation) :
    (r.applyAll ops).hadError = true ↔
      r.hadError = true ∧ .reset ∉ ops ∨ StaticSinceReset ops := by
  -- on the operations: the first one leaves a latch, from which the others are applied
  induction ops generalizing r with
  | nil =>
    have hnone : ¬StaticSinceReset [] := by
      intro h
      obtain ⟨before, d, later, heq, -⟩ := h
      cases before <;> cases heq
    simp [applyAll, hnone]
  | cons op ops ih =>
    have happly : r.applyAll (op :: ops) = (r.apply op).applyAll ops := rfl
    rw [happly, ih, staticSinceReset_cons_iff]
    cases op with
    | report d =>
      have hlatch : (r.apply (.report d)).hadError = (r.hadError || d.isStatic) := rfl
      rw [hlatch, Bool.or_eq_true]
      grind
    | reset =>
      have hlatch : (r.apply .reset).hadError = false := rfl
      rw [hlatch]
      grind

/-- The second latch was set before, or something that is no static error was reported. -/
theorem hadRuntimeError_applyAll (r : Reporter) (ops : List Operation) :
    (r.applyAll ops).hadRuntimeError = true ↔ r.hadRuntimeError = true ∨ RuntimeEver ops := by
  induction ops generalizing r with
  | nil => simp [applyAll, RuntimeEver]
  | cons op ops ih =>
    have happly : r.applyAll (op :: ops) = (r.apply op).applyAll ops := rfl
    rw [happly, ih]
    unfold RuntimeEver
    cases op with
    | report d =>
      have hlatch : (r.apply (.report d)).hadRuntimeError = (r.hadRuntimeError || !d.isStatic) := rfl
      rw [hlatch, Bool.or_eq_true, Bool.not_eq_true']
      grind
    | reset =>
      have hlatch : (r.apply .reset).hadRuntimeError = r.hadRuntimeError := rfl
      rw [hlatch]
      grind

theorem remembers_applyAll (stream : Stream) (ops : List Operation) :
    ((ofStream stream).applyAll ops).Remembers ops where
  hadError := by
    rw [hadError_applyAll]
    simp [ofStream]
  hadRuntimeError := by
    rw [hadRuntimeError_applyAll]
    simp [ofStream]

def limit (n : Nat) (r : Reporter) : Reporter := { r with stream := r.stream.limit n }

theorem ofStream_limited (n : Nat) :
    ofStream (.ofCapacity (some n) false) = (ofStream .unlimited).limit n := by
  have hempty : ByteArray.empty.extract 0 n = ByteArray.empty := by simp
  unfold ofStream limit Stream.limit
  rw [Stream.unlimited, Stream.ofCapacity, Stream.ofCapacity, hempty]

theorem capacity_reportAll (r : Reporter) (ds : List Diagnostic) :
    (r.reportAll ds).stream.capacity = r.stream.capacity := by
  unfold reportAll
  induction ds generalizing r with
  | nil => rfl
  | cons d ds ih => exact ih (r.report d)

variable (hunlimited : r.stream.capacity = none)

include hunlimited

theorem report_limit (n : Nat) (d : Diagnostic) : (r.limit n).report d = (r.report d).limit n := by
  unfold report limit
  rw [Stream.write_limit hunlimited]

theorem apply_limit (n : Nat) (op : Operation) : (r.limit n).apply op = (r.apply op).limit n := by
  cases op with
  | report d => exact report_limit hunlimited n d
  | reset => rfl

/-- Whatever is done to a reporter, the limit shows in the stream only. -/
theorem applyAll_limit (n : Nat) (ops : List Operation) :
    (r.limit n).applyAll ops = (r.applyAll ops).limit n := by
  induction ops generalizing r with
  | nil => rfl
  | cons op ops ih =>
    have hnext : (r.apply op).stream.capacity = none := by
      cases op <;> exact hunlimited
    calc (r.limit n).applyAll (op :: ops)
        = ((r.limit n).apply op).applyAll ops := rfl
      _ = ((r.apply op).limit n).applyAll ops := by rw [apply_limit hunlimited]
      _ = ((r.apply op).applyAll ops).limit n := ih hnext

theorem reportAll_limit (n : Nat) (ds : List Diagnostic) :
    (r.limit n).reportAll ds = (r.reportAll ds).limit n := by
  rw [← applyAll_report, ← applyAll_report, applyAll_limit hunlimited]

end

structure CutOff (n : Nat) (r r' : Reporter) : Prop where
  hadError : r'.hadError = r.hadError
  hadRuntimeError : r'.hadRuntimeError = r.hadRuntimeError
  written : r'.stream.written = r.stream.written.extract 0 n

theorem cutOff_limit (n : Nat) (r : Reporter) : CutOff n r (r.limit n) := ⟨rfl, rfl, rfl⟩

end Reporter

namespace Session

open Reporter (Operation)

def afterAll (fuel : Nat) : List Step → Session → Option Session
  | [], s => some s
  | step :: steps, s => (s.after fuel step).bind (afterAll fuel steps)

def operations (fuel : Nat) (s : Session) : Step → List Operation
  | .run text => (s.reported fuel text).map .report
  | .reset => [.reset]

def history (fuel : Nat) : List Step → Session → List Operation
  | [], _ => []
  | step :: steps, s => s.operations fuel step ++ (s.after fuel step).elim [] (history fuel steps)

def limitDiagnostics (n : Nat) (s : Session) : Session := { s with reporter := s.reporter.limit n }

section

variable {s s' : Session} {fuel : Nat} {step : Step} {steps : List Step}

/-- The history of a session is what its reporter has been through. -/
theorem reporter_after (h : s.after fuel step = some s') :
    s'.reporter = s.reporter.applyAll (s.operations fuel step) := by
  cases step with
  | run text => exact (reporter_run h).trans (Reporter.applyAll_report _ _).symm
  | reset =>
    cases h
    rfl

/-- The operations of the steps are what has been done to the reporter. -/
theorem reporter_afterAll (h : s.afterAll fuel steps = some s') :
    s'.reporter = s.reporter.applyAll (s.history fuel steps) := by
  induction steps generalizing s with
  | nil =>
    cases h
    rfl
  | cons step steps ih =>
    obtain ⟨s₁, hstep, hrest⟩ := Option.bind_eq_some_iff.mp h
    rw [history, hstep, Option.elim_some, Reporter.applyAll_append, ← reporter_after hstep]
    exact ih hrest

theorem capacity_after (h : s.after fuel step = some s') :
    s'.reporter.stream.capacity = s.reporter.stream.capacity := by
  cases step with
  | run text =>
    rw [reporter_run h]
    exact Reporter.capacity_reportAll _ _
  | reset =>
    cases h
    rfl

variable (hunlimited : s.reporter.stream.capacity = none)

include hunlimited

/-- Only the latches of the reporter are looked at before a program is run. -/
theorem prepare_limit (n : Nat) (text : String) :
    (s.limitDiagnostics n).prepare text =
      ((s.prepare text).1, (s.prepare text).2.limitDiagnostics n) := by
  have hread := Reporter.reportAll_limit hunlimited n (Front.ofText s.nextId text).diagnostics
  have hread' : (s.reporter.reportAll (Front.ofText s.nextId text).diagnostics).stream.capacity =
      none := (Reporter.capacity_reportAll _ _).trans hunlimited
  have hresolved := Reporter.reportAll_limit hread' n
    ((resolve s.machine.distances (Front.ofText s.nextId text).statements).errors.map (·.diagnostic))
  unfold prepare limitDiagnostics
  simp only [hread, hresolved]
  show (if (s.reporter.reportAll (Front.ofText s.nextId text).diagnostics).hadError then _ else _) = _
  split <;> rfl

theorem findings_limit (n : Nat) (text : String) :
    (s.limitDiagnostics n).findings text = s.findings text := by
  have hread := Reporter.reportAll_limit hunlimited n (Front.ofText s.nextId text).diagnostics
  unfold findings limitDiagnostics
  simp only [hread]
  rfl

theorem reported_limit (n fuel : Nat) (text : String) :
    (s.limitDiagnostics n).reported fuel text = s.reported fuel text := by
  unfold reported
  rw [findings_limit hunlimited, prepare_limit hunlimited]
  generalize s.prepare text = p
  obtain ⟨_ | program, t⟩ := p <;> rfl

/-- A limit on the diagnostics does not change what is run. -/
theorem run_limit (n fuel : Nat) (text : String) :
    (s.limitDiagnostics n).run fuel text = (s.run fuel text).map (limitDiagnostics n) := by
  have hunlimited' : (s.prepare text).2.reporter.stream.capacity = none := by
    rw [reporter_prepare, Reporter.capacity_reportAll, hunlimited]
  unfold run
  rw [prepare_limit hunlimited]
  generalize s.prepare text = p at hunlimited' ⊢
  obtain ⟨_ | program, t⟩ := p
  · rfl
  · simp only
    rw [runPrepared_eq, runPrepared_eq]
    show (t.limitDiagnostics n).ended (interpret fuel program t.machine) = _
    generalize interpret fuel program t.machine = result
    obtain ⟨outcome, machine⟩ := result
    have hreport := Reporter.reportAll_limit hunlimited' n outcome.diagnostic?.toList
    cases outcome with
    | exhausted => rfl
    | _ => exact congrArg (fun r => some (Session.mk machine r t.nextId)) hreport

theorem after_limit (n fuel : Nat) (step : Step) :
    (s.limitDiagnostics n).after fuel step = (s.after fuel step).map (limitDiagnostics n) := by
  cases step with
  | run text => exact run_limit hunlimited n fuel text
  | reset => rfl

theorem operations_limit (n fuel : Nat) (step : Step) :
    (s.limitDiagnostics n).operations fuel step = s.operations fuel step := by
  cases step with
  | run text => exact congrArg (List.map Operation.report) (reported_limit hunlimited n fuel text)
  | reset => rfl

/-- With limited room for diagnostics a session goes the same way. -/
theorem afterAll_limit (n fuel : Nat) (steps : List Step) :
    (s.limitDiagnostics n).afterAll fuel steps = (s.afterAll fuel steps).map (limitDiagnostics n) ∧
      (s.limitDiagnostics n).history fuel steps = s.history fuel steps := by
  induction steps generalizing s with
  | nil => exact ⟨rfl, rfl⟩
  | cons step steps ih =>
    rw [afterAll, afterAll, history, history, after_limit hunlimited, operations_limit hunlimited]
    cases hstep : s.after fuel step with
    | none => exact ⟨rfl, rfl⟩
    | some s' =>
      obtain ⟨hafter, hhistory⟩ := ih ((capacity_after hstep).trans hunlimited)
      exact ⟨hafter, congrArg (s.operations fuel step ++ ·) hhistory⟩

end

/-- After any steps a session with room for `n` bytes of diagnostics has the output and the latches of a
session with all room, and the first `n` bytes of its diagnostics; one ends if and only if the other
does. In both the latches tell what has been reported and reset in the session. The same holds of
reporters that are used without a session. -/
theorem latches_of_history (output : Stream) (clock : Clock) (n fuel : Nat) :
    (∀ steps : List Step,
      let s := start output .unlimited clock
      let t := start output (.ofCapacity (some n) false) clock
      t.history fuel steps = s.history fuel steps ∧
      Option.Rel (fun s' t' : Session =>
          t'.machine.output = s'.machine.output ∧ Reporter.CutOff n s'.reporter t'.reporter ∧
          s'.reporter = s.reporter.applyAll (s.history fuel steps) ∧
          s'.reporter.Remembers (s.history fuel steps) ∧
          t'.reporter.Remembers (t.history fuel steps))
        (s.afterAll fuel steps) (t.afterAll fuel steps)) ∧
    ∀ ops : List Operation,
      let r := (Reporter.ofStream .unlimited).applyAll ops
      let r' := (Reporter.ofStream (.ofCapacity (some n) false)).applyAll ops
      Reporter.CutOff n r r' ∧ r.Remembers ops ∧ r'.Remembers ops := by
  constructor
  · intro steps s t
    have hlimited : t = s.limitDiagnostics n :=
      congrArg (Session.mk (.start output clock) · 0) (Reporter.ofStream_limited n)
    -- the limit is put on once at the start, and is seen in the stream only ever after
    obtain ⟨hafter, hhistory⟩ := afterAll_limit (s := s) rfl n fuel steps
    rw [hlimited, hafter, hhistory]
    refine ⟨rfl, ?_⟩
    cases hends : s.afterAll fuel steps with
    | none => exact .none
    | some s' =>
      have hreporter := reporter_afterAll hends
      have hremembers : s'.reporter.Remembers (s.history fuel steps) := by
        rw [hreporter]
        exact Reporter.remembers_applyAll .unlimited _
      exact .some ⟨rfl, Reporter.cutOff_limit n _, hreporter, hremembers,
        ⟨hremembers.hadError, hremembers.hadRuntimeError⟩⟩
  · intro ops r r'
    refine ⟨?_, Reporter.remembers_applyAll _ ops, Reporter.remembers_applyAll _ ops⟩
    have hlimited : r' = r.limit n := by
      show (Reporter.ofStream (.ofCapacity (some n) false)).applyAll ops = _
      rw [Reporter.ofStream_limited, Reporter.applyAll_limit rfl]
    rw [hlimited]
    exact Reporter.cutOff_limit n r

end Session

end LoxLang
