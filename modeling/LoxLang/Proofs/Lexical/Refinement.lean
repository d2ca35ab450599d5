import LoxLang.Proofs.Lexical.Sessions

/-!
Sessions refine static scoping: accepted sources, run one after the other, print the same and end the
same as in the reference, whatever the fuel.
-/
namespace LoxLang.Lexical

structure Agrees (s : LoxLang.Session) (t : Session) : Prop where
  world : ∃ W, W.lossless = true ∧ Matches W s t.state
  reporter : s.reporter = t.reporter
  hadError : s.reporter.hadError = false

section

variable {s : LoxLang.Session} {t : Session} {text : String}

/-- An accepted source ends as in the reference, and the states that are reached are the same again. -/
theorem interpret_agrees (h : Agrees s t) (haccepted : Accepted text) (n : Nat) :
    ∃ W r, W.lossless = true ∧
      (∀ reporter, Matches W ⟨(LoxLang.interpret n (Front.ofText s.nextId text).statements
        (s.resolved text)).2, reporter, (Front.ofText s.nextId text).nextId⟩ r) ∧
      interpret n (program text) t.state =
        ((LoxLang.interpret n (Front.ofText s.nextId text).statements (s.resolved text)).1, r) := by
  obtain ⟨W, hlossless, hmatches⟩ := h.world
  obtain ⟨W₁, hlossless₁, hready, hscoped⟩ := hmatches.prepare text
  rw [LoxLang.Session.prepare_of_accepted haccepted h.hadError] at hready hscoped
  obtain ⟨W', r', hlossless', hmatches', hresult⟩ := hready.interpret (hscoped _ rfl) n
  have hprogram : (Front.ofText s.nextId text).statements.map Stmt.withoutIds = program text :=
    haccepted.statements s.nextId
  rw [hprogram] at hresult
  exact ⟨W', r', hlossless'.trans (hlossless₁.trans hlossless), hmatches',
    hresult (hlossless₁.trans hlossless)⟩

/-- A run of an accepted source has a result on both sides or on none, and the same one. -/
theorem agrees_run (h : Agrees s t) (haccepted : Accepted text) (n : Nat) :
    Option.Rel Agrees (s.run n text) (t.run n text) := by
  obtain ⟨W, r, hlossless, hmatches, hresult⟩ := interpret_agrees h haccepted n
  rw [LoxLang.Session.run_of_accepted haccepted h.hadError]
  unfold Session.run LoxLang.Session.runPrepared
  simp only [hresult]
  generalize LoxLang.interpret n _ _ = x at hmatches
  obtain ⟨outcome, machine⟩ := x
  have hagrees : Agrees
      ⟨machine, s.reporter.reportAll outcome.diagnostic?.toList, (Front.ofText s.nextId text).nextId⟩
      ⟨r, t.reporter.reportAll outcome.diagnostic?.toList⟩ :=
    { world := ⟨W, hlossless, hmatches _⟩
      reporter := by rw [h.reporter]
      hadError := (LoxLang.Session.hadError_reportAll_outcome _ _).trans h.hadError }
  cases outcome with
  | exhausted => exact .none
  | _ => exact .some hagrees

/-- What is written and what is reported are the same on both sides. -/
theorem observed_of_agrees {x : Option LoxLang.Session} {y : Option Session}
    (h : Option.Rel Agrees x y) :
    x.map (fun s => (s.machine.output.written, s.reporter)) =
      y.map fun t => (t.state.output, t.reporter) := by
  cases h with
  | none => rfl
  | some hagrees =>
    obtain ⟨W, hlossless, hmatches⟩ := hagrees.world
    have hwritten := (hmatches.related.output hlossless).1
    rw [Option.map_some, Option.map_some, hwritten, hagrees.reporter]

end

namespace Session

def runAll (fuel : Nat) : List String → Session → Option Session
  | [], s => some s
  | text :: texts, s => (s.run fuel text).bind (runAll fuel texts)

end Session

/-- Sessions and the reference run accepted sources alike, one after the other. -/
theorem agrees_runAll {texts : List String} (haccepted : ∀ text ∈ texts, Accepted text) (n : Nat)
    {s : LoxLang.Session} {t : Session} (h : Agrees s t) :
    Option.Rel Agrees (s.runAll n texts) (t.runAll n texts) := by
  induction texts generalizing s t with
  | nil => exact .some h
  | cons text texts ih =>
    have hfirst := agrees_run h (haccepted text List.mem_cons_self) n
    rw [LoxLang.Session.runAll, Session.runAll]
    generalize s.run n text = x at hfirst ⊢
    generalize t.run n text = y at hfirst ⊢
    cases hfirst with
    | none => exact .none
    | some h => exact ih (fun text htext => haccepted text (List.mem_cons_of_mem _ htext)) h

theorem agrees_start (clock : Clock) :
    Agrees (.start .unlimited .unlimited clock) (.start clock) where
  world := ⟨_, rfl, matches_start .unlimited clock (fun _ => rfl)⟩
  reporter := rfl
  hadError := rfl

/-- Accepted sources run in one session, with streams that do not fail, end as in the reference and
within the same fuel: with the same output, the same reports and the same latches. -/
theorem runAll_refines (clock : Clock) (texts : List String)
    (h : ∀ text ∈ texts, Accepted text) (fuel : Nat) :
    ((LoxLang.Session.start .unlimited .unlimited clock).runAll fuel texts).map
        (fun s => (s.machine.output.written, s.reporter)) =
      ((Session.start clock).runAll fuel texts).map fun s => (s.state.output, s.reporter) := by
  have hruns := agrees_runAll h fuel (agrees_start clock)
  exact observed_of_agrees hruns

def shadowedLater : List String :=
  ["let a = \"global\"; fun call(f) { f(); } " ++
    "\x7b fun show() \x7b print a; \x7d show(); let a = \"block\"; call(show); \x7d",
    "a = \"later\"; print a;"]

theorem runAll_shadowedLater : (∀ text ∈ shadowedLater, Accepted text) ∧
    ((LoxLang.Session.start .unlimited .unlimited fun _ => .ok 0).runAll 20 shadowedLater).map
        (fun s => (s.machine.output.written, s.reporter)) =
      ((Session.start fun _ => .ok 0).runAll 20 shadowedLater).map
        (fun s => (s.state.output, s.reporter)) ∧
    ((Session.start fun _ => .ok 0).runAll 20 shadowedLater).map (·.state.output) =
      some "global\nglobal\nlater\n".toUTF8 := by
  have h : ∀ text ∈ shadowedLater, Accepted text := by decide +kernel
  exact ⟨h, runAll_refines (fun _ => .ok 0) shadowedLater h 20, by decide +kernel⟩

end LoxLang.Lexical
