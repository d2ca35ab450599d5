import LoxLang.Proofs.Direct.Simulation
import LoxLang.Proofs.Lexical.Refinement

/-!
Sessions run programs as they are written. Whatever the streams have room for, accepted sources that the
machine follows to their end write, report and leave behind what the programs that were written do.
-/
namespace LoxLang.Direct

open Lexical (World Related Matches)
open Lexical.World (Keeps)

section

variable {W : World} {m : Machine} {s : State} {program : List Stmt} {written : List Declaration}

/-- A program that the machine follows to its end ends the same way as it is written. -/
theorem interpret_matched {n k : Nat} (hle : n ≤ k) (h : Matched W m s)
    (hcurrent : m.current = .globals) (hscoped : Lexical.ScopedStmts W.known [] program)
    (hsame : program.map Stmt.withoutIds = parsedAll written)
    (hends : (LoxLang.interpret n program m).1 ≠ .exhausted) :
    ∃ W' s', Keeps (· ∈ Environment.globals.head?) W W' ∧
      Matched W' (LoxLang.interpret n program m).2 s' ∧
      (LoxLang.interpret n program m).2.current = .globals ∧
      interpret k written s = ((LoxLang.interpret n program m).1, s') := by
  have hsteps := (follows n).executeAll hle (Lexical.within_outermost W) hscoped hsame
    m s h hcurrent
  have hflush {W' : World} {m' : Machine} {s' : State} (hmatched : Matched W' m' s') :
      s'.flush = m'.flush := by rw [State.flush, Machine.flush, hmatched.output]
  unfold LoxLang.interpret interpret at *
  generalize LoxLang.executeAll n program m = x at hsteps hends ⊢
  generalize executeAll k .outermost written s = y at hsteps ⊢
  cases hsteps with
  | ok hkeeps hmatched hcurrent _ =>
    exact ⟨_, _, hkeeps, hmatched, hcurrent, congrArg (·, _) (hflush hmatched)⟩
  | error hkeeps hmatched hcurrent h =>
    cases h with
    | returned _ => exact ⟨_, _, hkeeps, hmatched, hcurrent, congrArg (·, _) (hflush hmatched)⟩
    | runtime e => exact ⟨_, _, hkeeps, hmatched, hcurrent, rfl⟩
    | output f => exact ⟨_, _, hkeeps, hmatched, hcurrent, rfl⟩
  | exhausted => exact absurd rfl hends

end

structure Agrees (s : LoxLang.Session) (t : Session) : Prop where
  world : ∃ W, W.lossless = false ∧ Matches W s t.state.toLexical
  output : s.machine.output = t.state.output
  reporter : s.reporter = t.reporter
  hadError : s.reporter.hadError = false

theorem agrees_start (output diagnostics : Stream) (clock : Clock) :
    Agrees (.start output diagnostics clock) (.start output diagnostics clock) where
  world := ⟨⟨[], 1, ∅, fun _ _ => False, false⟩, rfl, Lexical.matches_start diagnostics clock nofun⟩
  output := rfl
  reporter := rfl
  hadError := rfl

section

variable {s s' : LoxLang.Session} {t : Session} {text : String} {written : List Declaration}

/-- A run of an accepted source that has a result has the same one as the program that was written. -/
theorem agrees_run (h : Agrees s t) (haccepted : Accepted text) (hwrites : Writes text written)
    {n k : Nat} (hle : n ≤ k) (hrun : s.run n text = some s') :
    ∃ t', t.run k written = some t' ∧ Agrees s' t' := by
  obtain ⟨W, hlossy, hmatches⟩ := h.world
  obtain ⟨W₁, hlossy₁, hready, hscoped⟩ := hmatches.prepare text
  rw [LoxLang.Session.prepare_of_accepted haccepted h.hadError] at hready hscoped
  rw [LoxLang.Session.run_of_accepted haccepted h.hadError, LoxLang.Session.runPrepared] at hrun
  have hmatched : Matched W₁ (s.resolved text) t.state :=
    ⟨hready.related, hlossy₁.trans hlossy, h.output⟩
  have hresult := interpret_matched hle hmatched hready.current (hscoped _ rfl)
    (statements_of_writes hwrites s.nextId)
  rw [Session.run]
  generalize LoxLang.interpret n _ (s.resolved text) = x at hrun hresult
  obtain ⟨outcome, machine⟩ := x
  have hends : outcome ≠ .exhausted := by
    rintro rfl
    cases hrun
  obtain ⟨W₂, state, hkeeps, hmatched₂, hcurrent₂, hinterpret⟩ := hresult hends
  rw [hinterpret]
  have hagrees : Agrees
      ⟨machine, s.reporter.reportAll outcome.diagnostic?.toList,
        (Front.ofText s.nextId text).nextId⟩
      ⟨state, t.reporter.reportAll outcome.diagnostic?.toList⟩ :=
    { world := ⟨W₂, hmatched₂.lossy, hready.keeps hkeeps hmatched₂.related hcurrent₂ _⟩
      output := hmatched₂.output
      reporter := by rw [h.reporter]
      hadError := (LoxLang.Session.hadError_reportAll_outcome _ _).trans h.hadError }
  cases outcome with
  | exhausted => exact absurd rfl hends
  | _ =>
    cases hrun
    exact ⟨_, rfl, hagrees⟩

/-- Sources that have all been run have been run as they are written, with as much fuel or more. -/
theorem agrees_runAll {texts : List String} {programs : List (List Declaration)}
    (hwrites : List.Forall₂ Writes texts programs) (haccepted : ∀ text ∈ texts, Accepted text)
    {n k : Nat} (hle : n ≤ k) (h : Agrees s t) (hrun : s.runAll n texts = some s') :
    ∃ t', t.runAll k programs = some t' ∧ Agrees s' t' := by
  induction hwrites generalizing s t with
  | nil =>
    cases hrun
    exact ⟨t, rfl, h⟩
  | @cons text written texts programs hfirst _ ih =>
    rw [LoxLang.Session.runAll] at hrun
    obtain ⟨s₁, hrun₁, hrest⟩ := Option.bind_eq_some_iff.mp hrun
    obtain ⟨t₁, ht₁, h₁⟩ := agrees_run h (haccepted text List.mem_cons_self) hfirst hle hrun₁
    obtain ⟨t', ht', h'⟩ :=
      ih (fun text htext => haccepted text (List.mem_cons_of_mem _ htext)) h₁ hrest
    exact ⟨t', by rw [Session.runAll, ht₁, Option.bind_some, ht'], h'⟩

end

/-- Accepted sources run in one session, each `for` in the while form that it is read as, write, report
and leave behind in all variables what the programs do as they are written; these do it within the same
fuel and with any larger amount. Every accepted source has been written as such a program. -/
theorem runAll_as_written (output diagnostics : Stream) (clock : Clock)
    (texts : List String) (h : ∀ text ∈ texts, Accepted text) :
    (∃ programs, List.Forall₂ Writes texts programs) ∧
      ∀ programs, List.Forall₂ Writes texts programs → ∀ fuel s,
        (LoxLang.Session.start output diagnostics clock).runAll fuel texts = some s →
          ∀ more, fuel ≤ more →
            ∃ t, (Session.start output diagnostics clock).runAll more programs = some t ∧
              s.machine.output = t.state.output ∧ s.reporter = t.reporter ∧
              ∃ W, Related W s.machine t.state.toLexical := by
  refine ⟨exists_writesAll h, fun programs hwrites fuel s hrun more hle => ?_⟩
  obtain ⟨t, ht, hagrees⟩ :=
    agrees_runAll hwrites h hle (agrees_start output diagnostics clock) hrun
  obtain ⟨W, -, hmatches⟩ := hagrees.world
  exact ⟨t, ht, hagrees.output, hagrees.reporter, W, hmatches.related⟩

def sharedVariable : List String :=
  ["let show = nil; fun pick() \x7b for (;;) return \"b\"; \x7d",
    "for (let s = \"a\"; s != \"aaa\"; s = s + \"a\") \x7b let t = s; " ++
    "fun f() \x7b print s + t; \x7d if (show == nil) show = f; " ++
    "for (let u = \"\"; u != \"b\";) u = pick(); \x7d show();"]

theorem runAll_as_written_sharedVariable : (∀ text ∈ sharedVariable, Accepted text) ∧
    ∃ programs t, List.Forall₂ Writes sharedVariable programs ∧
      (Session.start .unlimited .unlimited fun _ => .ok 0).runAll 30 programs = some t ∧
      t.state.output.written = "aaaa\n".toUTF8 := by
  have h : ∀ text ∈ sharedVariable, Accepted text := by decide +kernel
  have hrun : ((LoxLang.Session.start .unlimited .unlimited fun _ => .ok 0).runAll 30
      sharedVariable).map (·.machine.output.written) = some "aaaa\n".toUTF8 := by decide +kernel
  obtain ⟨s, hs, hwritten⟩ := Option.map_eq_some_iff.mp hrun
  obtain ⟨⟨programs, hwrites⟩, hall⟩ :=
    runAll_as_written .unlimited .unlimited (fun _ => .ok 0) sharedVariable h
  obtain ⟨t, ht, houtput, -⟩ := hall programs hwrites 30 s hs 30 (Nat.le_refl 30)
  exact ⟨h, programs, t, hwrites, ht, by rw [← houtput, hwritten]⟩

end LoxLang.Direct
