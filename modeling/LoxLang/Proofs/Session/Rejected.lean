import LoxLang.Proofs.Lexical.Sessions
import LoxLang.Proofs.Parsing.Relabelled
import LoxLang.Proofs.Session.Reports

/-!
A text with a static error leaves no trace. Preparing it may use up ids and record distances, but no
later step can tell: two sessions in the same state of the reference show the same, whatever ids and
records they hold. Main statement: `trace_rejected`.
-/
namespace LoxLang

open Lexical

/-- The session reads a text as one that has run nothing does, but for ids. -/
theorem Front.ofText_eq (nextId : ReferenceId) (text : String) :
    ofText nextId text =
      { statements := (ofText 0 text).statements.map (Stmt.relabel (· + nextId) id)
        diagnostics := (ofText 0 text).diagnostics
        nextId := (ofText 0 text).nextId + nextId } := by
  have hparse := parse_relabel (g := id) (fun _ => rfl) nextId 0 (exists_eof_mem_tokensOf text)
  have herrors : SyntaxError.relabel id = id := rfl
  rw [Nat.zero_add, List.map_id, herrors, List.map_id] at hparse
  unfold ofText
  change Front.mk (parse nextId (tokensOf text)).statements (_ ++
    (parse nextId (tokensOf text)).errors.map _) (parse nextId (tokensOf text)).nextId = _
  rw [hparse]
  rfl

/-- The same rules are broken whatever the ids and the distances known before are. -/
theorem errors_resolve_ofText (distances : Distances) (nextId : ReferenceId) (text : String) :
    (resolve distances (Front.ofText nextId text).statements).errors =
      (resolve ∅ (Front.ofText 0 text).statements).errors := by
  have herrors : ResolutionError.relabel id = id := rfl
  have hrelabel := Resolution.errors_resolve_relabel_eq (f := (· + nextId)) (g := id) (fun _ => rfl) ∅
    distances (Front.ofText 0 text).statements
  rw [herrors, List.map_id] at hrelabel
  rw [Front.ofText_eq]
  exact hrelabel

structure Twins (s t : Session) : Prop where
  world : ∃ W W' r, W.lossless = true ∧ W'.lossless = true ∧ Matches W s r ∧ Matches W' t r
  hadError : s.reporter.hadError = t.reporter.hadError
  hadRuntimeError : s.reporter.hadRuntimeError = t.reporter.hadRuntimeError

namespace Twins

open Session

variable {s t : Session}

theorem written (h : Twins s t) : s.machine.output.written = t.machine.output.written := by
  obtain ⟨W, W', r, hlossless, hlossless', hmatches, hmatches'⟩ := h.world
  rw [(hmatches.related.output hlossless).1, (hmatches'.related.output hlossless').1]

/-- What is found wrong with a text is the same, and the programs to be run are the same but for ids. -/
theorem prepare_same (hlatch : s.reporter.hadError = t.reporter.hadError) (text : String) :
    (s.prepare text).1.map (List.map Stmt.withoutIds) =
        (t.prepare text).1.map (List.map Stmt.withoutIds) ∧
      s.findings text = t.findings text := by
  have hfront (s : Session) : (Front.ofText s.nextId text).diagnostics =
      (Front.ofText 0 text).diagnostics := by rw [Front.ofText_eq]
  have hlatched (ds : List Diagnostic) :
      (s.reporter.reportAll ds).hadError = (t.reporter.reportAll ds).hadError := by
    rw [Reporter.hadError_reportAll, Reporter.hadError_reportAll, hlatch]
  have hstatements (s : Session) : (Front.ofText s.nextId text).statements.map Stmt.withoutIds =
      (Front.ofText 0 text).statements.map Stmt.withoutIds := by
    rw [Front.ofText_eq]
    simp only [List.map_map]
    refine List.map_congr_left fun stmt _ => ?_
    exact Stmt.relabel_relabel ..
  unfold Session.prepare Session.findings
  simp only [hfront, errors_resolve_ofText, ← Reporter.reportAll_append, hlatched]
  by_cases hstop : (t.reporter.reportAll (Front.ofText 0 text).diagnostics).hadError = true
  · simp only [if_pos hstop]
    exact ⟨trivial, trivial⟩
  · simp only [if_neg hstop]
    refine ⟨?_, trivial⟩
    split
    · rfl
    · rw [Option.map_some, Option.map_some, hstatements s, hstatements t]

/-- Reporting the same sets the same latches. -/
theorem report {s t : Session} (ds : List Diagnostic) (hs : s.reporter.hadError = t.reporter.hadError)
    (ht : s.reporter.hadRuntimeError = t.reporter.hadRuntimeError) :
    (s.reporter.reportAll ds).hadError = (t.reporter.reportAll ds).hadError ∧
      (s.reporter.reportAll ds).hadRuntimeError = (t.reporter.reportAll ds).hadRuntimeError := by
  rw [Reporter.hadError_reportAll, Reporter.hadError_reportAll,
    Reporter.hadRuntimeError_reportAll, Reporter.hadRuntimeError_reportAll, hs, ht]
  exact ⟨rfl, rfl⟩

/-- Running a text in twins shows the same and gives twins again. -/
theorem run (h : Twins s t) (fuel : Nat) (text : String) :
    Option.Rel Twins (s.run fuel text) (t.run fuel text) ∧
      s.reported fuel text = t.reported fuel text := by
  obtain ⟨W, W', r, hlossless, hlossless', hmatches, hmatches'⟩ := h.world
  obtain ⟨hprograms, hfindings⟩ := prepare_same h.hadError text
  obtain ⟨W₁, hlossless₁, hmatches₁, hscoped⟩ := hmatches.prepare text
  obtain ⟨W₁', hlossless₁', hmatches₁', hscoped'⟩ := hmatches'.prepare text
  have hlatches := report (t.findings text) h.hadError h.hadRuntimeError
  rw [← reporter_prepare, ← hfindings, ← reporter_prepare] at hlatches
  unfold Session.run Session.reported
  rw [hfindings]
  generalize s.prepare text = x at *
  generalize t.prepare text = y at *
  obtain ⟨p, s₁⟩ := x
  obtain ⟨q, t₁⟩ := y
  cases p with
  | none =>
    obtain rfl : q = none := Option.map_eq_none_iff.mp hprograms.symm
    refine ⟨.some ⟨⟨W₁, W₁', r, ?_, ?_, hmatches₁, hmatches₁'⟩, hlatches.1, hlatches.2⟩, rfl⟩
    · exact hlossless₁.trans hlossless
    · exact hlossless₁'.trans hlossless'
  | some p =>
    obtain ⟨q, rfl, hpq⟩ := Option.map_eq_some_iff.mp hprograms.symm
    obtain ⟨W₂, r₂, hlossless₂, hmatches₂, hresult⟩ := hmatches₁.interpret (hscoped p rfl) fuel
    obtain ⟨W₂', r₂', hlossless₂', hmatches₂', hresult'⟩ :=
      hmatches₁'.interpret (hscoped' q rfl) fuel
    -- without ids both programs are one, so the reference runs it once for both sessions
    have hreference := hresult (hlossless₁.trans hlossless)
    rw [← hpq, hresult' (hlossless₁'.trans hlossless')] at hreference
    simp only [runPrepared_eq] at hlatches ⊢
    generalize interpret fuel p s₁.machine = x at *
    generalize interpret fuel q t₁.machine = y at *
    obtain ⟨outcome, m⟩ := x
    obtain ⟨outcome', m'⟩ := y
    obtain ⟨rfl, rfl⟩ := Prod.mk.inj hreference
    refine ⟨?_, rfl⟩
    by_cases hends : outcome' = .exhausted
    · subst hends
      exact .none
    · rw [ended_of_ne_exhausted _ hends, ended_of_ne_exhausted _ hends]
      have hlatches' := report outcome'.diagnostic?.toList hlatches.1 hlatches.2
      refine .some ⟨⟨W₂, W₂', r₂', ?_, ?_, hmatches₂ _, hmatches₂' _⟩, hlatches'.1, hlatches'.2⟩
      · exact hlossless₂.trans (hlossless₁.trans hlossless)
      · exact hlossless₂'.trans (hlossless₁'.trans hlossless')

theorem reset (h : Twins s t) : Twins s.reset t.reset where
  world := by
    obtain ⟨W, W', r, hlossless, hlossless', hmatches, hmatches'⟩ := h.world
    exact ⟨W, W', r, hlossless, hlossless', { hmatches with }, { hmatches' with }⟩
  hadError := rfl
  hadRuntimeError := h.hadRuntimeError

/-- Twins are twins after a step, and the same is seen of it. -/
theorem after (h : Twins s t) (fuel : Nat) (step : Step) :
    Option.Rel (fun s' t' => Twins s' t' ∧
        s.observation fuel step s' = t.observation fuel step t')
      (s.after fuel step) (t.after fuel step) := by
  have hsame {s' t' : Session} (h' : Twins s' t')
      (hreported : (s.observation fuel step s').diagnostics =
        (t.observation fuel step t').diagnostics) :
      s.observation fuel step s' = t.observation fuel step t' := by
    simp only [observation] at hreported ⊢
    rw [hreported, Stream.since, Stream.since, h.written, h'.written, h'.hadError,
      h'.hadRuntimeError]
  cases step with
  | reset => exact .some ⟨h.reset, hsame h.reset rfl⟩
  | run text =>
    obtain ⟨hrel, hreported⟩ := h.run fuel text
    simp only [Session.after]
    generalize s.run fuel text = x at hrel ⊢
    generalize t.run fuel text = y at hrel ⊢
    cases hrel with
    | none => exact .none
    | some h' => exact .some ⟨h', hsame h' hreported⟩

theorem trace (h : Twins s t) (fuel : Nat) (steps : List Step) :
    s.trace fuel steps = t.trace fuel steps := by
  have hafter (s t : Session) (step step' : Step) (h : Twins s t) (hstep : step = step') :
      Option.Rel (fun s' t' => Twins s' t' ∧
          id (s.observation fuel step s') = id (t.observation fuel step' t'))
        (s.after fuel step) (t.after fuel step') := hstep ▸ h.after fuel step
  have hsame := trace_of_after hafter (List.forall₂_same.mpr fun step (_ : step ∈ steps) => rfl) h
  simpa only [List.map_id_fun, Option.map_id_fun, id] using hsame

end Twins

namespace Session

/-- What is found wrong with a text is a static error. -/
theorem isStatic_of_mem_findings {s : Session} {text : String} {d : Diagnostic}
    (h : d ∈ s.findings text) : d.isStatic = true := by
  unfold findings at h
  simp only at h
  split at h
  · exact isStatic_of_mem_diagnostics h
  · rcases List.mem_append.mp h with h | h
    · exact isStatic_of_mem_diagnostics h
    · obtain ⟨e, -, rfl⟩ := List.mem_map.mp h
      rfl

/-- What a run ends with is no static error. -/
theorem isStatic_of_mem_diagnostic? {o : Outcome} {d : Diagnostic} (h : d ∈ o.diagnostic?) :
    d.isStatic = false := by
  cases o <;> cases h <;> rfl

/-- A text of which a static error is reported is not run. The output and the latch of runtime errors stay
as they are. -/
theorem prepare_of_static {s : Session} (hlatch : s.reporter.hadError = false) {text : String}
    {fuel : Nat} (h : ∃ d ∈ s.reported fuel text, d.isStatic = true) :
    (s.prepare text).1 = none ∧ (s.prepare text).2.machine.output = s.machine.output ∧
      (s.prepare text).2.reporter.hadRuntimeError = s.reporter.hadRuntimeError := by
  have hruntime : (s.prepare text).2.reporter.hadRuntimeError = s.reporter.hadRuntimeError := by
    have hnone : (s.findings text).any (!·.isStatic) = false :=
      List.any_eq_false.mpr fun d hd => by simp [isStatic_of_mem_findings hd]
    rw [reporter_prepare, Reporter.hadRuntimeError_reportAll, hnone, Bool.or_false]
  have hprepared := prepared s text
  have hreporter := reporter_prepare s text
  obtain ⟨d, hd, hstatic⟩ := h
  unfold reported at hd
  generalize s.prepare text = p at *
  cases hprepared with
  | unread => exact ⟨rfl, rfl, hruntime⟩
  | unresolved => exact ⟨rfl, rfl, hruntime⟩
  | ready hread hresolved =>
    have hfound : d ∈ s.findings text := by
      rcases List.mem_append.mp hd with hd | hd
      · exact hd
      · rw [isStatic_of_mem_diagnostic? (Option.mem_toList.mp hd)] at hstatic
        cases hstatic
    have hset := Reporter.hadError_reportAll s.reporter (s.findings text)
    rw [← hreporter, hlatch, List.any_eq_true.mpr ⟨d, hfound, hstatic⟩] at hset
    cases hset

/-- A text of which a static error is reported does nothing that a later step could show: after a reset,
everything is as if it had not been there. -/
theorem trace_rejected {s : Session} (hs : s.Reachable .unlimited .unlimited)
    (hlatch : s.reporter.hadError = false) (text : String) (fuel : Nat)
    (h : ∃ d ∈ s.reported fuel text, d.isStatic = true) :
    ∃ s', (∀ fuel, s.run fuel text = some s') ∧ s'.machine.output = s.machine.output ∧
      ∀ fuel steps, s'.reset.trace fuel steps = s.trace fuel steps := by
  obtain ⟨W, r, hlossless, hmatches⟩ := exists_matches hs fun _ : true = true => rfl
  obtain ⟨W', hlossless', hmatches', -⟩ := hmatches.prepare text
  obtain ⟨hnone, houtput, hruntime⟩ := prepare_of_static hlatch h
  refine ⟨(s.prepare text).2, fun fuel => ?_, houtput, fun fuel steps => ?_⟩
  · unfold run
    generalize s.prepare text = p at hnone ⊢
    obtain ⟨_ | program, s'⟩ := p
    · rfl
    · cases hnone
  · refine Twins.trace ⟨⟨W', W, r, hlossless'.trans hlossless, hlossless, ?_, hmatches⟩, ?_, ?_⟩
      fuel steps
    · exact { hmatches' with }
    · exact hlatch.symm
    · exact hruntime

/-- A name is declared twice, but the distance of a use before that is recorded. -/
theorem trace_rejected_declaredTwice :
    ∃ s', (∀ fuel, (start .unlimited .unlimited fun _ => .ok 0).run fuel
        "\x7b let a; print a; let a; \x7d" = some s') ∧
      s'.machine.output = (start .unlimited .unlimited fun _ => .ok 0).machine.output ∧
      ∀ fuel steps, s'.reset.trace fuel steps =
        (start .unlimited .unlimited fun _ => .ok 0).trace fuel steps :=
  trace_rejected (.start fun _ => .ok 0) rfl "\x7b let a; print a; let a; \x7d" 9 (by decide +kernel)

end Session

end LoxLang
