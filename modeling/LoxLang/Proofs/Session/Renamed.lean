import LoxLang.Proofs.Renaming.Runs
import LoxLang.Proofs.Renaming.Texts
import LoxLang.Proofs.Session.Pieces

/-!
A local variable under another name. With the name changed at its declaration and at every use that
belongs to it, a source is accepted as it was, and a run of it looks the same, but for the name that
an undefined variable is reported by. Main statement: `run_renamed`.
-/
namespace LoxLang

open Renaming
open Lexical (Agrees agrees_run observed_of_agrees)
open Lexical.Renaming (ErrorAlike OutcomeAlike StateAlike interpret_alike stateAlike_start)

section

variable (x y : String)

/-- The same diagnostic, or that of an undefined variable under its two names. -/
def DiagnosticAlike (d d' : Diagnostic) : Prop :=
  d' = d ∨ ∃ line, d = (RuntimeError.mk line (.undefinedVariable x)).diagnostic ∧
    d' = (RuntimeError.mk line (.undefinedVariable y)).diagnostic

structure ObservationAlike (o o' : Session.Observation) : Prop where
  output : o'.output = o.output
  diagnostics : List.Forall₂ (DiagnosticAlike x y) o.diagnostics o'.diagnostics
  hadError : o'.hadError = o.hadError
  hadRuntimeError : o'.hadRuntimeError = o.hadRuntimeError

end

section

variable {x y : String}

theorem DiagnosticAlike.isStatic_eq {d d' : Diagnostic} (h : DiagnosticAlike x y d d') :
    d'.isStatic = d.isStatic := by
  rcases h with rfl | ⟨line, rfl, rfl⟩ <;> rfl

theorem any_isStatic_alike {ds ds' : List Diagnostic}
    (h : List.Forall₂ (DiagnosticAlike x y) ds ds') (p : Bool → Bool) :
    ds'.any (fun d => p d.isStatic) = ds.any fun d => p d.isStatic := by
  induction h with
  | nil => rfl
  | cons hfirst _ ih => rw [List.any_cons, List.any_cons, ih, hfirst.isStatic_eq]

theorem diagnostics_alike {o o' : Outcome} (h : OutcomeAlike x y o o') :
    List.Forall₂ (DiagnosticAlike x y) o.diagnostic?.toList o'.diagnostic?.toList := by
  cases h with
  | same => exact List.forall₂_same.mpr fun d _ => .inl rfl
  | runtime h =>
    rcases h with rfl | ⟨line, rfl, rfl⟩
    · exact .cons (.inl rfl) .nil
    · exact .cons (.inr ⟨line, rfl, rfl⟩) .nil

end

namespace Session

/-- Runs that have a result and report the same but for a name look the same but for it. -/
theorem observation_alike {x y text text' : String} {fuel : Nat} {s t t' : Session}
    (hrun : s.run fuel text = some t) (hrun' : s.run fuel text' = some t')
    (houtput : t'.machine.output.written = t.machine.output.written)
    (hreported : List.Forall₂ (DiagnosticAlike x y) (s.reported fuel text)
      (s.reported fuel text')) :
    ObservationAlike x y (s.observation fuel (.run text) t)
      (s.observation fuel (.run text') t') where
  output := by
    unfold observation Stream.since
    rw [houtput]
  diagnostics := hreported
  hadError := by
    show t'.reporter.hadError = t.reporter.hadError
    rw [reporter_run hrun, reporter_run hrun', Reporter.hadError_reportAll,
      Reporter.hadError_reportAll]
    exact congrArg (s.reporter.hadError || ·) (any_isStatic_alike hreported id)
  hadRuntimeError := by
    show t'.reporter.hadRuntimeError = t.reporter.hadRuntimeError
    rw [reporter_run hrun, reporter_run hrun', Reporter.hadRuntimeError_reportAll,
      Reporter.hadRuntimeError_reportAll]
    exact congrArg (s.reporter.hadRuntimeError || ·) (any_isStatic_alike hreported not)

end Session

section

variable {text new : String} {name : Token} (h : Accepted text) (hlocal : IsLocal text name)
  (hnew : IsName new) (hfresh : ∀ t ∈ tokensOf text, t.lexeme ≠ new)

include h hlocal hnew hfresh

theorem accepted_renamed : Accepted (renamed text name new) := by
  obtain ⟨htokens, herrors⟩ := tokensOf_renamed h name hnew
  obtain ⟨hparsed, hresolved, -⟩ := changed_tokens h hlocal hfresh
  rw [← htokens] at hparsed hresolved
  exact ⟨(diagnostics_ofText_eq_nil_iff 0 _).mpr ⟨herrors, hparsed⟩, hresolved⟩

theorem interpret_renamed (fuel : Nat) (clock : Clock) :
    let s := Lexical.State.start clock
    let ends := Lexical.interpret fuel (Lexical.program text) s
    let ends' := Lexical.interpret fuel (Lexical.program (renamed text name new)) s
    OutcomeAlike name.lexeme new ends.1 ends'.1 ∧ StateAlike name.lexeme new ends.2 ends'.2 := by
  have halike := (changed_tokens h hlocal hfresh).2.2
  rw [← (tokensOf_renamed h name hnew).1] at halike
  exact interpret_alike halike fuel (stateAlike_start clock)

/-- In the reference both sources have a result or neither has, and the same output. -/
theorem lexicalRun_renamed (fuel : Nat) (clock : Clock) :
    Option.Rel (fun t t' => t'.state.output = t.state.output)
      ((Lexical.Session.start clock).run fuel text)
      ((Lexical.Session.start clock).run fuel (renamed text name new)) := by
  obtain ⟨houtcome, hstate⟩ := interpret_renamed h hlocal hnew hfresh fuel clock
  have houtput := hstate.output.symm
  unfold Lexical.Session.run Lexical.Session.start
  generalize Lexical.interpret fuel (Lexical.program text) _ = ends at houtcome houtput ⊢
  generalize Lexical.interpret fuel (Lexical.program (renamed text name new)) _ = ends'
    at houtcome houtput ⊢
  obtain ⟨o, r⟩ := ends
  obtain ⟨o', r'⟩ := ends'
  cases houtcome with
  | same =>
    cases o with
    | exhausted => exact .none
    | _ => exact .some houtput
  | runtime _ => exact .some houtput

end

namespace Session

/-- In a fresh session, let a local variable of an accepted source get a name that is no keyword and
that no token of the source has. The source is accepted under the new name. Whatever the fuel, both
sources run to an end or neither does, and then both have the same output, the same latches and the
same diagnostics, but for the name that an undefined variable is reported by. -/
theorem run_renamed {text new : String} {name : Token} (h : Accepted text)
    (hlocal : IsLocal text name) (hnew : IsName new) (hfresh : ∀ t ∈ tokensOf text, t.lexeme ≠ new) :
    Accepted (renamed text name new) ∧ ∀ (clock : Clock) (fuel : Nat),
      let s := start .unlimited .unlimited clock
      Option.Rel (fun t t' => ObservationAlike name.lexeme new (s.observation fuel (.run text) t)
          (s.observation fuel (.run (renamed text name new)) t'))
        (s.run fuel text) (s.run fuel (renamed text name new)) := by
  have haccepted := accepted_renamed h hlocal hnew hfresh
  refine ⟨haccepted, ?_⟩
  intro clock fuel s
  -- each source is run as the reference runs it, and the two references are compared
  have hstart := Lexical.agrees_start clock
  have hends := observed_of_agrees (agrees_run hstart h fuel)
  have hends' := observed_of_agrees (agrees_run hstart haccepted fuel)
  have hreported : List.Forall₂ (DiagnosticAlike name.lexeme new) (s.reported fuel text)
      (s.reported fuel (renamed text name new)) := by
    rw [Lexical.reported_of_agrees hstart h, Lexical.reported_of_agrees hstart haccepted]
    exact diagnostics_alike (interpret_renamed h hlocal hnew hfresh fuel clock).1
  have hreference := lexicalRun_renamed h hlocal hnew hfresh fuel clock
  generalize (Lexical.Session.start clock).run fuel text = x at hends hreference
  generalize (Lexical.Session.start clock).run fuel (renamed text name new) = x' at hends' hreference
  cases hreference with
  | none =>
    rw [Option.map_none, Option.map_eq_none_iff] at hends hends'
    show Option.Rel _ (s.run fuel text) (s.run fuel (renamed text name new))
    rw [hends, hends']
    exact .none
  | some houtput =>
    rw [Option.map_some, Option.map_eq_some_iff] at hends hends'
    obtain ⟨t, hrun, hwritten⟩ := hends
    obtain ⟨t', hrun', hwritten'⟩ := hends'
    have hsame : t'.machine.output.written = t.machine.output.written :=
      (congrArg Prod.fst hwritten').trans (houtput.trans (congrArg Prod.fst hwritten).symm)
    have halike := observation_alike hrun hrun' hsame hreported
    show Option.Rel _ (s.run fuel text) (s.run fuel (renamed text name new))
    rw [hrun, hrun']
    exact .some halike

def shadowing : String :=
  "let a = \"out\"; \x7b fun p() \x7b print a; \x7d let a = \"in\"; " ++
    "fun q() \x7b a = a + \"!\"; print a; \x7d \x7b let a = nil; print a; \x7d p(); q(); \x7d"

def shadowingRenamed : String :=
  "let a = \"out\"; \x7b fun p() \x7b print a; \x7d let b = \"in\"; " ++
    "fun q() \x7b b = b + \"!\"; print b; \x7d \x7b let a = nil; print a; \x7d p(); q(); \x7d"

theorem run_renamed_shadowing :
    Accepted shadowing ∧ IsName "b" ∧ (∀ t ∈ tokensOf shadowing, t.lexeme ≠ "b") ∧
    ∃ name, IsLocal shadowing name ∧ name.lexeme = "a" ∧ renamed shadowing name "b" = shadowingRenamed ∧
      Accepted shadowingRenamed ∧
      (∀ (clock : Clock) (fuel : Nat),
        let s := start .unlimited .unlimited clock
        Option.Rel (fun t t' => ObservationAlike "a" "b" (s.observation fuel (.run shadowing) t)
            (s.observation fuel (.run shadowingRenamed) t'))
          (s.run fuel shadowing) (s.run fuel shadowingRenamed)) ∧
      ((start .unlimited .unlimited fun _ => .ok 0).run 20 shadowingRenamed).map
        (·.machine.output.written) = some "nil\nout\nin!\n".toUTF8 := by
  have h : Accepted shadowing := by decide +kernel
  have hnew : IsName "b" := by
    show Fits (.token .identifier) ['b'] []
    exact .identifier [] (isNameStart_iff.mp rfl) nofun fun k => by cases k <;> decide
  have hfresh : ∀ t ∈ tokensOf shadowing, t.lexeme ≠ "b" := by decide +kernel
  have hfourth : (occurrences shadowing)[3]?.map
      (fun o => (o.role, o.name.line, o.name.lexeme, o.declaration.map (·.line))) =
        some (.variable, 16, "a", some 16) := by decide +kernel
  obtain ⟨o, ho, hfacts⟩ := Option.map_eq_some_iff.mp hfourth
  simp only [Prod.mk.injEq] at hfacts
  obtain ⟨hrole, hplace, hlexeme, hdeclaration⟩ := hfacts
  have hlocal : IsLocal shadowing o.name := by
    refine ⟨o, List.mem_of_getElem? ho, hrole, rfl, ?_⟩
    rw [← Option.isSome_map, hdeclaration]
    rfl
  have hchange : change shadowing o.name "b" =
      ⟨16, fun i => (occurrences shadowing).any fun u =>
        u.name.line == i && u.declaration.any (·.line == 16), "a", "b"⟩ := by
    unfold change
    rw [hplace, hlexeme]
  have hrenamed : renamed shadowing o.name "b" = shadowingRenamed := by
    unfold renamed
    rw [hchange]
    decide +kernel
  obtain ⟨haccepted, hruns⟩ := run_renamed h hlocal hnew hfresh
  rw [hrenamed] at haccepted hruns
  rw [hlexeme] at hruns
  refine ⟨h, hnew, hfresh, o.name, hlocal, hlexeme, hrenamed, haccepted, hruns, ?_⟩
  decide +kernel

end Session

end LoxLang
