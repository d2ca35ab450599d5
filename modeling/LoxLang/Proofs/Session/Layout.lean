import Mathlib
import LoxLang.Proofs.Session.Lines

/-!
Layout has no meaning. Two texts that are read as the same items on other lines are run alike, and so is
everything that is run after them: only the lines of diagnostics differ. Main statement:
`trace_layout`.
-/
namespace LoxLang

def noLine : Nat → Nat := fun _ => 0

def Diagnostic.withoutLine : Diagnostic → Diagnostic := Diagnostic.mapLine noLine

def Session.Observation.withoutLines (o : Session.Observation) : Session.Observation :=
  { o with diagnostics := o.diagnostics.map Diagnostic.withoutLine }

/-- The texts are read as the same items, but for their lines. -/
def SameLayout (a b : String) : Prop :=
  (scan a).map (Item.mapLine noLine) = (scan b).map (Item.mapLine noLine)

theorem SameLayout.front {a b : String} (h : SameLayout a b) (nextId : ReferenceId) :
    (Front.ofText nextId a).mapLines noLine = (Front.ofText nextId b).mapLines noLine := by
  rw [Front.mapLines_ofText, Front.mapLines_ofText, h]

structure SameButLines (s t : Session) : Prop where
  machine : s.machine.mapLines noLine = t.machine.mapLines noLine
  nextId : s.nextId = t.nextId
  hadError : s.reporter.hadError = t.reporter.hadError
  hadRuntimeError : s.reporter.hadRuntimeError = t.reporter.hadRuntimeError

section

variable {r r' : Reporter} {ds ds' : List Diagnostic}

theorem map_isStatic_of_same
    (hds : ds.map Diagnostic.withoutLine = ds'.map Diagnostic.withoutLine) :
    ds.map Diagnostic.isStatic = ds'.map Diagnostic.isStatic := by
  have hforget : Diagnostic.isStatic ∘ Diagnostic.withoutLine = Diagnostic.isStatic :=
    funext Diagnostic.isStatic_mapLine
  have h := congrArg (List.map Diagnostic.isStatic) hds
  rwa [List.map_map, List.map_map, hforget] at h

theorem hadError_reportAll_of_same (h : r.hadError = r'.hadError)
    (hds : ds.map Diagnostic.withoutLine = ds'.map Diagnostic.withoutLine) :
    (r.reportAll ds).hadError = (r'.reportAll ds').hadError := by
  have hany := congrArg (List.any · id) (map_isStatic_of_same hds)
  simp only [List.any_map] at hany
  rw [Reporter.hadError_reportAll, Reporter.hadError_reportAll, h]
  exact congrArg (r'.hadError || ·) hany

theorem hadRuntimeError_reportAll_of_same (h : r.hadRuntimeError = r'.hadRuntimeError)
    (hds : ds.map Diagnostic.withoutLine = ds'.map Diagnostic.withoutLine) :
    (r.reportAll ds).hadRuntimeError = (r'.reportAll ds').hadRuntimeError := by
  have hany := congrArg (List.any · not) (map_isStatic_of_same hds)
  simp only [List.any_map] at hany
  rw [Reporter.hadRuntimeError_reportAll, Reporter.hadRuntimeError_reportAll, h]
  exact congrArg (r'.hadRuntimeError || ·) hany

/-- The same rules are broken by programs that differ in lines only, and the same is recorded. -/
theorem resolve_of_same {p p' : List Stmt}
    (h : p.map (Stmt.mapLines noLine) = p'.map (Stmt.mapLines noLine)) (distances : Distances) :
    (resolve distances p).distances = (resolve distances p').distances ∧
      ((resolve distances p).errors.map (·.diagnostic)).map Diagnostic.withoutLine =
        ((resolve distances p').errors.map (·.diagnostic)).map Diagnostic.withoutLine := by
  obtain ⟨hknown, herrors⟩ := resolve_mapLines (g := noLine) distances p
  obtain ⟨hknown', herrors'⟩ := resolve_mapLines (g := noLine) distances p'
  rw [h] at hknown herrors
  exact ⟨hknown.symm.trans hknown', herrors.symm.trans herrors'⟩

end

namespace SameButLines

open Session

variable {s t : Session} (h : SameButLines s t) {a b : String} (hab : SameLayout a b)

include h

theorem report {ds ds' : List Diagnostic}
    (hds : ds.map Diagnostic.withoutLine = ds'.map Diagnostic.withoutLine) :
    SameButLines { s with reporter := s.reporter.reportAll ds }
      { t with reporter := t.reporter.reportAll ds' } :=
  ⟨h.machine, h.nextId, hadError_reportAll_of_same h.hadError hds,
    hadRuntimeError_reportAll_of_same h.hadRuntimeError hds⟩

theorem output : s.machine.output = t.machine.output :=
  (congrArg Machine.output h.machine : (s.machine.mapLines noLine).output = _)

include hab

/-- Texts of one layout are accepted or rejected alike, with the same findings but for their lines. -/
theorem prepare :
    (s.prepare a).1.map (List.map (Stmt.mapLines noLine)) =
        (t.prepare b).1.map (List.map (Stmt.mapLines noLine)) ∧
      SameButLines (s.prepare a).2 (t.prepare b).2 ∧
      (s.findings a).map Diagnostic.withoutLine = (t.findings b).map Diagnostic.withoutLine := by
  obtain ⟨m, r, n⟩ := s
  obtain ⟨m', r', n'⟩ := t
  obtain rfl : n = n' := h.nextId
  have hfront := hab.front n
  have hstatements : (Front.ofText n a).statements.map (Stmt.mapLines noLine) =
      (Front.ofText n b).statements.map (Stmt.mapLines noLine) := congrArg Front.statements hfront
  have hdiagnostics : (Front.ofText n a).diagnostics.map Diagnostic.withoutLine =
      (Front.ofText n b).diagnostics.map Diagnostic.withoutLine := congrArg Front.diagnostics hfront
  have hnext : (Front.ofText n a).nextId = (Front.ofText n b).nextId :=
    (congrArg Front.nextId hfront : ((Front.ofText n a).mapLines noLine).nextId = _)
  have hdistances : m.distances = m'.distances :=
    (congrArg Machine.distances h.machine : (m.mapLines noLine).distances = _)
  have hread : SameButLines ⟨m, r.reportAll (Front.ofText n a).diagnostics, n⟩
    ⟨m', r'.reportAll (Front.ofText n b).diagnostics, n⟩ := h.report hdiagnostics
  obtain ⟨hknown, hresolved⟩ := resolve_of_same hstatements m'.distances
  have hboth := hread.report hresolved
  have hlatch : (r.reportAll (Front.ofText n a).diagnostics).hadError =
    (r'.reportAll (Front.ofText n b).diagnostics).hadError := hread.hadError
  have hmachine : Machine.mapLines noLine
        { m with distances := (resolve m'.distances (Front.ofText n a).statements).distances } =
      Machine.mapLines noLine
        { m' with distances := (resolve m'.distances (Front.ofText n b).statements).distances } := by
    rw [hknown]
    exact congrArg (fun m : Machine => { m with
      distances := (resolve m'.distances (Front.ofText n b).statements).distances }) h.machine
  unfold Session.prepare Session.findings
  simp only [hlatch, hdistances]
  -- both sides stop after the same part of the front end: their latches are the same
  by_cases hstop : (r'.reportAll (Front.ofText n b).diagnostics).hadError = true
  · simp only [if_pos hstop]
    exact ⟨trivial, ⟨h.machine, hnext, hread.hadError, hread.hadRuntimeError⟩, hdiagnostics⟩
  · simp only [if_neg hstop, List.map_append, hdiagnostics, hresolved]
    refine ⟨?_, ⟨hmachine, hnext, hboth.hadError, hboth.hadRuntimeError⟩, trivial⟩
    rw [hboth.hadError]
    split
    · rfl
    · exact congrArg some hstatements

omit hab in
/-- Programs that are the same but for lines are run alike. -/
theorem runPrepared {p q : List Stmt}
    (hpq : p.map (Stmt.mapLines noLine) = q.map (Stmt.mapLines noLine)) (fuel : Nat) :
    Option.Rel SameButLines (s.runPrepared fuel p) (t.runPrepared fuel q) ∧
      (interpret fuel p s.machine).1.diagnostic?.toList.map Diagnostic.withoutLine =
        (interpret fuel q t.machine).1.diagnostic?.toList.map Diagnostic.withoutLine := by
  have hp := interpret_mapLines noLine fuel p s.machine
  have hq := interpret_mapLines noLine fuel q t.machine
  rw [hpq, h.machine, hq] at hp
  rw [runPrepared_eq, runPrepared_eq]
  generalize interpret fuel p s.machine = x at hp ⊢
  generalize interpret fuel q t.machine = y at hp ⊢
  obtain ⟨outcome, m⟩ := x
  obtain ⟨outcome', m'⟩ := y
  obtain ⟨houtcome, hmachine⟩ := Prod.mk.inj hp
  have hdiagnostic : outcome.diagnostic?.toList.map Diagnostic.withoutLine =
      outcome'.diagnostic?.toList.map Diagnostic.withoutLine := by
    have hsame := congrArg (fun o => o.diagnostic?.toList) houtcome
    simp only [Outcome.diagnostic?_mapLine, Option.toList_map] at hsame
    exact hsame.symm
  refine ⟨?_, hdiagnostic⟩
  by_cases hends : outcome = .exhausted
  · subst hends
    obtain rfl : outcome' = .exhausted := Outcome.mapLine_eq_exhausted_iff.mp houtcome
    exact .none
  · have hends' : outcome' ≠ .exhausted := by
      rintro rfl
      exact hends (Outcome.mapLine_eq_exhausted_iff.mp houtcome.symm)
    rw [ended_of_ne_exhausted _ hends, ended_of_ne_exhausted _ hends']
    exact .some { h.report hdiagnostic with machine := hmachine.symm }

/-- Texts of one layout are run alike. -/
theorem run (fuel : Nat) :
    Option.Rel SameButLines (s.run fuel a) (t.run fuel b) ∧
      (s.reported fuel a).map Diagnostic.withoutLine =
        (t.reported fuel b).map Diagnostic.withoutLine := by
  obtain ⟨hprogram, hsessions, hfindings⟩ := h.prepare hab
  unfold Session.run Session.reported
  rw [List.map_append, List.map_append, hfindings]
  generalize s.prepare a = x at hprogram hsessions ⊢
  generalize t.prepare b = y at hprogram hsessions ⊢
  obtain ⟨p, s'⟩ := x
  obtain ⟨q, t'⟩ := y
  cases p with
  | none =>
    obtain rfl : q = none := Option.map_eq_none_iff.mp hprogram.symm
    exact ⟨.some hsessions, rfl⟩
  | some p =>
    obtain ⟨q, rfl, hpq⟩ := Option.map_eq_some_iff.mp hprogram.symm
    obtain ⟨hrel, hdiagnostics⟩ := hsessions.runPrepared hpq.symm fuel
    exact ⟨hrel, congrArg _ hdiagnostics⟩

end SameButLines

namespace Session

inductive Step.SameLayout : Step → Step → Prop
  | run {a b : String} (h : LoxLang.SameLayout a b) : SameLayout (.run a) (.run b)
  | reset : SameLayout .reset .reset

theorem observation_withoutLines {s s' t t' : Session} {step step' : Step} {fuel : Nat}
    (h : SameButLines s t) (h' : SameButLines s' t')
    (hdiagnostics : (s.observation fuel step s').diagnostics.map Diagnostic.withoutLine =
      (t.observation fuel step' t').diagnostics.map Diagnostic.withoutLine) :
    (s.observation fuel step s').withoutLines = (t.observation fuel step' t').withoutLines := by
  unfold Observation.withoutLines
  rw [hdiagnostics]
  simp only [observation, h.output, h'.output, h'.hadError, h'.hadRuntimeError]

/-- Sessions that differ in lines only are so after a step, and the same is seen of the step but for
lines. -/
theorem after_sameButLines {s t : Session} (h : SameButLines s t) {step step' : Step}
    (hstep : step.SameLayout step') (fuel : Nat) :
    Option.Rel (fun s' t' => SameButLines s' t' ∧
        (s.observation fuel step s').withoutLines = (t.observation fuel step' t').withoutLines)
      (s.after fuel step) (t.after fuel step') := by
  cases hstep with
  | reset =>
    have hreset : SameButLines s.reset t.reset := { h with hadError := rfl }
    exact .some ⟨hreset, observation_withoutLines h hreset rfl⟩
  | @run a b hab =>
    obtain ⟨hrel, hreported⟩ := h.run hab fuel
    unfold after
    simp only
    generalize s.run fuel a = x at hrel ⊢
    generalize t.run fuel b = y at hrel ⊢
    cases hrel with
    | none => exact .none
    | some h' => exact .some ⟨h', observation_withoutLines h h' hreported⟩

/-- Sessions that differ in lines only show the same of steps that differ in layout only, but for
lines. -/
theorem trace_sameButLines {s t : Session} (h : SameButLines s t) {steps steps' : List Step}
    (hsteps : List.Forall₂ Step.SameLayout steps steps') (fuel : Nat) :
    (s.trace fuel steps).map (List.map Observation.withoutLines) =
      (t.trace fuel steps').map (List.map Observation.withoutLines) :=
  trace_of_after (fun _ _ _ _ h hstep => after_sameButLines h hstep fuel) hsteps h

end Session

/-- Texts without lexical errors have the same layout up to lines if their tokens have. -/
theorem sameLayout_of_tokens {a b : String} (ha : (scan a).filterMap Item.error? = [])
    (hb : (scan b).filterMap Item.error? = [])
    (htokens : (tokensOf a).map (Token.mapLine noLine) = (tokensOf b).map (Token.mapLine noLine)) :
    SameLayout a b := by
  have hitems {text : String} (h : (scan text).filterMap Item.error? = []) :
      scan text = (tokensOf text).map Item.token := by
    rw [tokensOf]
    generalize scan text = items at h
    induction items with
    | nil => rfl
    | cons i items ih =>
      cases i with
      | token t => exact congrArg (Item.token t :: ·) (ih h)
      | error e => cases h
  have hmove (ts : List Token) : (ts.map Item.token).map (Item.mapLine noLine) =
      (ts.map (Token.mapLine noLine)).map Item.token := by
    rw [List.map_map, List.map_map]
    rfl
  rw [SameLayout, hitems ha, hitems hb, hmove, hmove, htokens]

/-- Running one or the other of two texts without lexical errors that have the same tokens on whatever
lines shows the same, now and in all steps after, but for the lines of diagnostics. -/
theorem trace_layout {a b : String} (ha : (scan a).filterMap Item.error? = [])
    (hb : (scan b).filterMap Item.error? = [])
    (htokens : (tokensOf a).map (Token.mapLine noLine) = (tokensOf b).map (Token.mapLine noLine))
    (s : Session) (fuel : Nat) (steps : List Session.Step) :
    (s.trace fuel (.run a :: steps)).map (List.map Session.Observation.withoutLines) =
      (s.trace fuel (.run b :: steps)).map (List.map Session.Observation.withoutLines) := by
  have hsame : List.Forall₂ Session.Step.SameLayout steps steps := by
    refine List.forall₂_same.mpr fun step _ => ?_
    cases step with
    | run text => exact .run rfl
    | reset => exact .reset
  exact Session.trace_sameButLines ⟨rfl, rfl, rfl, rfl⟩
    (.cons (.run (sameLayout_of_tokens ha hb htokens)) hsame) fuel

/-- An undefined name is reported on another line if a comment and a newline stand before it. -/
theorem trace_layout_comment :
    ((Session.start .unlimited .unlimited fun _ => .ok 0).trace 9
        [.run "print a;", .run "fun a() \x7b print b; \x7d a();"]).map
        (List.map Session.Observation.withoutLines) =
      ((Session.start .unlimited .unlimited fun _ => .ok 0).trace 9
        [.run "print // this\n a\n;", .run "fun a() \x7b print b; \x7d a();"]).map
        (List.map Session.Observation.withoutLines) := by
  refine trace_layout (by decide +kernel) (by decide +kernel) ?_ _ 9 _
  cbv

end LoxLang
