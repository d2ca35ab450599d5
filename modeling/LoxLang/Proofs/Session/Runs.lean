import LoxLang.Proofs.Session.Accepted

/-!
Sources run one after the other. What reading and the static rules find is always a static error, so
a source is run if and only if nothing is found and no static error is latched; a run itself reports
no static error, and the next source is run too.
-/
namespace LoxLang.Session

/-- Sessions that a session started on the two streams can become. -/
inductive Reachable (output diagnostics : Stream) : Session → Prop
  | start (clock : Clock) : Reachable output diagnostics (.start output diagnostics clock)
  | run {s s' : Session} {fuel : Nat} {text : String} (h : Reachable output diagnostics s)
      (hrun : s.run fuel text = some s') : Reachable output diagnostics s'
  | reset {s : Session} (h : Reachable output diagnostics s) : Reachable output diagnostics s.reset

def runAll (fuel : Nat) : List String → Session → Option Session
  | [], s => some s
  | text :: texts, s => (s.run fuel text).bind (runAll fuel texts)

def resolved (s : Session) (text : String) : Machine :=
  { s.machine with
    distances := (resolve s.machine.distances (Front.ofText s.nextId text).statements).distances }

theorem hadError_reportAll_static (r : Reporter) {ds : List Diagnostic}
    (h : ∀ d ∈ ds, d.isStatic = true) :
    (r.reportAll ds).hadError = false ↔ r.hadError = false ∧ ds = [] := by
  rw [Reporter.hadError_reportAll, Bool.or_eq_false_iff, List.any_eq_false]
  refine and_congr_right fun _ => ⟨fun hnone => ?_, fun hnil => by simp [hnil]⟩
  cases ds with
  | nil => rfl
  | cons d ds => exact absurd (h d List.mem_cons_self) (hnone d List.mem_cons_self)

theorem isStatic_of_mem_diagnostics {nextId : ReferenceId} {text : String} {d : Diagnostic}
    (h : d ∈ (Front.ofText nextId text).diagnostics) : d.isStatic = true := by
  rw [Front.ofText, List.mem_append, List.mem_map, List.mem_map] at h
  rcases h with ⟨e, -, rfl⟩ | ⟨e, -, rfl⟩ <;> rfl

inductive Prepared (s : Session) (text : String) : Option (List Stmt) × Session → Prop
  | unread (reporter : Reporter) :
      Prepared s text (none, ⟨s.machine, reporter, (Front.ofText s.nextId text).nextId⟩)
  | unresolved (reporter : Reporter) (hread : (Front.ofText s.nextId text).diagnostics = []) :
      Prepared s text (none, ⟨s.resolved text, reporter, (Front.ofText s.nextId text).nextId⟩)
  | ready (hread : (Front.ofText s.nextId text).diagnostics = [])
      (hresolved : (resolve s.machine.distances
        (Front.ofText s.nextId text).statements).errors = [])
      (hlatch : s.reporter.hadError = false) :
      Prepared s text (some (Front.ofText s.nextId text).statements,
        ⟨s.resolved text, s.reporter, (Front.ofText s.nextId text).nextId⟩)

/-- The preparation of a text ends in one of the three ways. -/
theorem prepared (s : Session) (text : String) : Prepared s text (s.prepare text) := by
  have hstatic : ∀ d ∈ (Front.ofText s.nextId text).diagnostics, d.isStatic = true :=
    fun _ => isStatic_of_mem_diagnostics
  unfold prepare
  simp only
  split
  · exact .unread _
  · next hread =>
    obtain ⟨hlatch, hread⟩ :=
      (hadError_reportAll_static _ hstatic).mp (Bool.eq_false_iff.mpr hread)
    split
    · exact .unresolved _ hread
    · next hresolved =>
      obtain ⟨-, hnone⟩ := (hadError_reportAll_static _ (by simp [ResolutionError.diagnostic,
        Diagnostic.atToken, Diagnostic.isStatic])).mp (Bool.eq_false_iff.mpr hresolved)
      rw [hread, hnone]
      exact .ready hread (List.map_eq_nil_iff.mp hnone) hlatch

/-- A run that has a result is of a text that is not ready, or of a program that is followed to its end. -/
theorem prepare_of_run {s s' : Session} {fuel : Nat} {text : String}
    (h : s.run fuel text = some s') :
    s.prepare text = (none, s') ∨ ∃ program ready, s.prepare text = (some program, ready) ∧
      s'.machine = (interpret fuel program ready.machine).2 := by
  unfold run at h
  split at h
  · next s₁ hprepare =>
    cases h
    exact .inl hprepare
  · next program ready hprepare =>
    refine .inr ⟨program, ready, hprepare, ?_⟩
    simp only [runPrepared] at h
    split at h
    · cases h
    · next outcome machine hend =>
      cases h
      rw [hend]

/-- An accepted text is found ready to be run, with nothing reported. -/
theorem prepare_of_accepted {s : Session} {text : String} (h : Accepted text)
    (hlatch : s.reporter.hadError = false) :
    s.prepare text = (some (Front.ofText s.nextId text).statements,
      ⟨s.resolved text, s.reporter, (Front.ofText s.nextId text).nextId⟩) := by
  have hnone : s.reporter.reportAll [] = s.reporter := rfl
  have herrors := h.errors s.nextId s.machine.distances
  simp only [prepare, h.diagnostics, hnone, hlatch, herrors, List.map_nil, Bool.false_eq_true,
    if_false]
  rfl

/-- The run of an accepted text. -/
theorem run_of_accepted {s : Session} {text : String} (h : Accepted text)
    (hlatch : s.reporter.hadError = false) (fuel : Nat) :
    s.run fuel text = runPrepared fuel (Front.ofText s.nextId text).statements
      ⟨s.resolved text, s.reporter, (Front.ofText s.nextId text).nextId⟩ := by
  rw [run, prepare_of_accepted h hlatch]

/-- What a run reports is no static error. -/
theorem hadError_reportAll_outcome (r : Reporter) (o : Outcome) :
    (r.reportAll o.diagnostic?.toList).hadError = r.hadError := by
  rw [Reporter.hadError_reportAll]
  cases o <;> simp [Outcome.diagnostic?, Diagnostic.isStatic, RuntimeError.diagnostic]

end LoxLang.Session
