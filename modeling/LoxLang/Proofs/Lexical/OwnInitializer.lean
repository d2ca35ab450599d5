import Mathlib
import LoxLang.Proofs.Lexical.Awaiting
import LoxLang.Proofs.Running.Undefined

/-!
Uses of local variables in their own initializers. A read is a static error. An assignment is none, and
it always fails when the program runs, since its variable has no value yet; no other use of a local
variable fails.
-/
namespace LoxLang.Lexical

/-- A read of a local variable finds a value. -/
theorem Holds.reference {own : Option String} {id : ReferenceId} {name : Token} {m : Machine} {d : Nat}
    (h : Holds (.expr own (.reference id name)) m) (hd : m.distances[id]? = some d) (n : Nat) :
    ∃ v, LoxLang.evaluate (n + 1) (.reference id name) m = .ok v m := by
  cases h with
  | expr hrelated hsees hawaits hscoped =>
    cases hscoped with
    | reference hknown hready =>
      have hown : own ≠ some name.lexeme := by
        intro hown
        obtain ⟨scope, outer, -, -, -, rfl, -, hdeclared, -⟩ := hawaits.unset _ hown
        exact hready scope rfl hdeclared
      obtain ⟨a, v, hlocate, hv⟩ := (hawaits.locate hsees.fits hrelated hknown hd).2 hown
      refine ⟨v, ?_⟩
      rw [LoxLang.evaluate]
      exact read_of_locate hlocate hv

/-- An assignment to a local variable fails if and only if it is a part of the initializer of that
variable. -/
theorem Holds.assign {own : Option String} {id : ReferenceId} {name : Token} {value : Expr}
    {m m' : Machine} {n d : Nat} {v : LoxLang.Value}
    (h : Holds (.expr own (.assign id name value)) m)
    (hvalue : LoxLang.evaluate n value m = .ok v m') (hd : m.distances[id]? = some d) :
    (own = some name.lexeme → Run.assign id name v m' = .error (.runtime (.undefined name)) m') ∧
      (own ≠ some name.lexeme → ∃ m'', Run.assign id name v m' = .ok () m'') := by
  cases h with
  | @expr _ _ _ W r σ env hrelated hsees hawaits hscoped =>
    cases hscoped with
    | assign hscoped hknown =>
      obtain ⟨W', r', -, hkeeps, hrelated', hcurrent, -⟩ :=
        exists_of_evaluate hrelated hsees hscoped hvalue
      have hfits := hsees.fits.mono hkeeps.extends
      have hawaits' := hawaits.keeps hkeeps
      rw [← hcurrent] at hfits hawaits'
      have hd' : m'.distances[id]? = some d := by
        rw [hrelated'.distances, hkeeps.distances, ← hrelated.distances, hd]
      have hlocate := hawaits'.locate hfits hrelated' (hkeeps.extends.known _ _ hknown) hd'
      simp only [Run.assign, Bind.bind, EStateM.bind]
      constructor
      · intro hown
        rw [hlocate.1 hown]
      · intro hown
        obtain ⟨a, w, hfound, -⟩ := hlocate.2 hown
        rw [hfound]
        exact ⟨_, rfl⟩

theorem evaluate_assign {id : ReferenceId} {name : Token} {value : Expr} {m m' : Machine} {n : Nat}
    {v : LoxLang.Value} (hvalue : LoxLang.evaluate n value m = .ok v m') :
    LoxLang.evaluate (n + 1) (.assign id name value) m =
      (Run.assign id name v >>= fun _ => pure v) m' := by
  rw [LoxLang.evaluate]
  simp only [Bind.bind, EStateM.bind, hvalue]

/-- A run that ends because of an undefined variable has missed a global one, or a local one that its own
initializer assigns to. -/
theorem exists_misses_of_interpret {output diagnostics : Stream} {s s' : LoxLang.Session}
    {text x : String} {program : List Stmt} (hreachable : s.Reachable output diagnostics)
    (hready : s.prepare text = (some program, s')) {fuel : Nat} {e : RuntimeError} {m' : Machine}
    (hrun : LoxLang.interpret fuel program s'.machine = (.runtime e, m'))
    (hcause : e.cause = .undefinedVariable x) :
    ∃ n own u id name m,
      Begins fuel (.stmts program) s'.machine (n + 1) (.expr own u) m ∧ Misses n id name u m ∧
      e = .undefined name ∧ (m.distances[id]? = none ∨
        own = some name.lexeme ∧ ∃ value, u = .assign id name value) := by
  have hfails : Fails fuel (.runtime e) (.stmts program) s'.machine :=
    .stmts (executeAll_of_interpret hrun)
  obtain ⟨n, own, u, id, name, m, hbegins, hmisses, hsignal⟩ :=
    traces x (.runtime e) fuel _ _ hfails ⟨e, rfl, hcause⟩
  cases hsignal
  refine ⟨n, own, u, id, name, m, hbegins, hmisses, rfl, ?_⟩
  -- a use without a record is looked for among the global variables, of which nothing is known here
  have hholds := holds_begins (holds_program hreachable hready) hbegins
  cases hd : m.distances[id]? with
  | none => exact .inl rfl
  | some d =>
    cases hmisses with
    | reference hread =>
      obtain ⟨v, hv⟩ := hholds.reference hd n
      rw [LoxLang.evaluate, hread] at hv
      cases hv
    | assign hvalue hassign =>
      refine .inr ⟨?_, _, rfl⟩
      by_contra hown
      obtain ⟨m'', hassigned⟩ := (hholds.assign hvalue hd).2 hown
      rw [hassign] at hassigned
      cases hassigned

/-- In every run, whatever the session has run before and whatever its streams take: a local variable
that is read has a value, and an assignment to a local variable fails if and only if it is a part of
the initializer of that variable. So a run that ends because of an undefined variable has missed a global
one, or one of these. -/
theorem assign_undefined_iff {output diagnostics : Stream} {s s' : LoxLang.Session} {text : String}
    {program : List Stmt} (hreachable : s.Reachable output diagnostics)
    (hready : s.prepare text = (some program, s')) (fuel : Nat) :
    (∀ {n : Nat} {own : Option String} {id : ReferenceId} {name : Token} {m : Machine} {d : Nat},
      Begins fuel (.stmts program) s'.machine (n + 1) (.expr own (.reference id name)) m →
      m.distances[id]? = some d →
      ∃ v, LoxLang.evaluate (n + 1) (.reference id name) m = .ok v m) ∧
    (∀ {n : Nat} {own : Option String} {id : ReferenceId} {name : Token} {value : Expr}
      {m m' : Machine} {v : LoxLang.Value} {d : Nat},
      Begins fuel (.stmts program) s'.machine (n + 1) (.expr own (.assign id name value)) m →
      LoxLang.evaluate n value m = .ok v m' → m.distances[id]? = some d →
      (LoxLang.evaluate (n + 1) (.assign id name value) m = .error (.runtime (.undefined name)) m' ↔
        own = some name.lexeme)) ∧
    ∀ {x : String} {e : RuntimeError} {m' : Machine},
      LoxLang.interpret fuel program s'.machine = (.runtime e, m') → e.cause = .undefinedVariable x →
      ∃ n own u id name m,
        Begins fuel (.stmts program) s'.machine (n + 1) (.expr own u) m ∧ Misses n id name u m ∧
        e = .undefined name ∧ (m.distances[id]? = none ∨
          own = some name.lexeme ∧ ∃ value, u = .assign id name value) := by
  have hprogram := holds_program hreachable hready
  refine ⟨?_, ?_, fun hrun hcause => exists_misses_of_interpret hreachable hready hrun hcause⟩
  · intro n own id name m d hbegins hd
    exact (holds_begins hprogram hbegins).reference hd n
  · intro n own id name value m m' v d hbegins hvalue hd
    -- once its value is there, the assignment fails exactly where the variable still awaits its own
    have hassign := (holds_begins hprogram hbegins).assign hvalue hd
    rw [evaluate_assign hvalue]
    simp only [Bind.bind, EStateM.bind]
    constructor
    · intro hfails
      by_contra hown
      obtain ⟨m'', hassigned⟩ := hassign.2 hown
      rw [hassigned] at hfails
      cases hfails
    · intro hown
      rw [hassign.1 hown]

def ownInitializer : String := "\x7b let a = a = nil; \x7d"

def ownAssignment : Expr := .assign 1 ⟨.identifier, "a", 1⟩ (.literal .nil)

theorem statements_ownInitializer : (Front.ofText 0 ownInitializer).statements =
    [.block [.declare ⟨.identifier, "a", 1⟩ (some ownAssignment)]] := by
  unfold ownInitializer ownAssignment
  cbv

theorem accepted_ownInitializer : Accepted ownInitializer := by decide +kernel

def ownSession : LoxLang.Session :=
  ((LoxLang.Session.start .unlimited .unlimited fun _ => .ok 0).prepare ownInitializer).2

theorem prepare_ownInitializer :
    (LoxLang.Session.start .unlimited .unlimited fun _ => .ok 0).prepare ownInitializer =
      (some [.block [.declare ⟨.identifier, "a", 1⟩ (some ownAssignment)]], ownSession) := by
  rw [ownSession, LoxLang.Session.prepare_of_accepted accepted_ownInitializer rfl]
  exact congrArg (fun ss => (some ss, _)) statements_ownInitializer

theorem current_ownSession : ownSession.machine.current = .globals := by
  rw [ownSession, LoxLang.Session.prepare_of_accepted accepted_ownInitializer rfl]
  rfl

/-- The assignment is evaluated in the block, as a part of the initializer of `a`. -/
theorem begins_ownAssignment :
    Begins 6 (.stmts [.block [.declare ⟨.identifier, "a", 1⟩ (some ownAssignment)]])
      ownSession.machine 2 (.expr (some "a") ownAssignment) (ownSession.machine.enter .globals) := by
  have hblock := Begins.call (@Begins.itself 6 _ ownSession.machine) (@Calls.firstStmt 5 _
    (.block [.declare ⟨.identifier, "a", 1⟩ (some ownAssignment)]) [])
  have hbody := hblock.call .block
  rw [current_ownSession] at hbody
  have hown : (ownSession.machine.enter .globals).ownName? ⟨.identifier, "a", 1⟩ = some "a" :=
    if_neg (by simp [Machine.enter, Store.inside, Environment.globals])
  have hvalue := (hbody.call .firstStmt).call .initializer
  rwa [hown] at hvalue

theorem distances_ownSession : ownSession.machine.distances[1]? = some 0 := by decide +kernel

/-- Nothing is reported of the text, and its assignment, whose variable stands in the innermost scope,
fails. -/
theorem assign_undefined_ownInitializer :
    Accepted ownInitializer ∧ ∃ (program : List Stmt) (s : LoxLang.Session) (m : Machine),
      (LoxLang.Session.start .unlimited .unlimited fun _ => .ok 0).prepare ownInitializer =
        (some program, s) ∧
      Begins 6 (.stmts program) s.machine 2 (.expr (some "a") ownAssignment) m ∧
      m.distances[1]? = some 0 ∧
      LoxLang.evaluate 2 ownAssignment m =
        .error (.runtime (.undefined ⟨.identifier, "a", 1⟩)) m := by
  refine ⟨accepted_ownInitializer, _, _, _, prepare_ownInitializer, begins_ownAssignment,
    distances_ownSession, ?_⟩
  have hunset : ¬((ownSession.machine.enter .globals).store.readTable
      ownSession.machine.store.tables.size "a").isSome = true := by decide +kernel
  have hlocate := (locate_of_distance (m := ownSession.machine.enter .globals)
    distances_ownSession rfl ⟨.identifier, "a", 1⟩).trans (if_neg hunset)
  rw [ownAssignment, evaluate_assign rfl]
  simp only [Run.assign, Bind.bind, EStateM.bind, hlocate]

theorem assign_undefined_iff_ownInitializer :
    (LoxLang.Session.start .unlimited .unlimited fun _ => .ok 0).Reachable .unlimited .unlimited ∧
    LoxLang.evaluate 2 ownAssignment (ownSession.machine.enter .globals) =
      .error (.runtime (.undefined ⟨.identifier, "a", 1⟩)) (ownSession.machine.enter .globals) :=
  ⟨.start _, ((assign_undefined_iff (.start _) prepare_ownInitializer 6).2.1 begins_ownAssignment rfl
    distances_ownSession).mpr rfl⟩

end LoxLang.Lexical
