import Mathlib
import LoxLang.Proofs.Lexical.Awaiting

/-!
Recorded distances fit the environments of a run. Wherever a use with a record is evaluated, the table
that stands the recorded distance out is there and is not the global one; and it has the name, if the
use is a read. The invariant behind it is that of `Holds`, which relates the scopes of a tree to the
environment that it is evaluated in.
-/
namespace LoxLang

def Environment.ancestor? : Environment → Nat → Option Environment
  | [], _ => none
  | a :: outer, 0 => some (a :: outer)
  | _ :: outer, d + 1 => ancestor? outer d

/-- The environment that stands some scopes out starts with the table at that distance. -/
theorem Environment.exists_ancestor {e : Environment} {d : Nat} {a : Address}
    (h : e[d]? = some a) : ∃ outer, e.ancestor? d = some (a :: outer) := by
  induction e generalizing d with
  | nil => cases h
  | cons b outer ih =>
    cases d with
    | zero =>
      cases h
      exact ⟨outer, rfl⟩
    | succ d => exact ih h

namespace Lexical

def LocalAt (e : Environment) (d : Nat) (a : Address) : Prop :=
  a ∉ Environment.globals ∧ ∃ outer, e.ancestor? d = some (a :: outer)

section

variable {own : Option String} {id : ReferenceId} {name : Token} {m m' : Machine} {d : Nat}

/-- The table of a variable with a record. -/
theorem Fits.localAt {W : World} {r : State} {σ : Scopes} {env : Env} {x : String}
    (h : Fits W σ m.current env.names) (hrelated : Related W m r)
    (hknown : W.known id (σ.distance? x)) (hd : m.distances[id]? = some d) :
    σ.distance? x = some d ∧ ∃ a, m.current[d]? = some a ∧ LocalAt m.current d a := by
  have hdistance : σ.distance? x = some d := by
    rw [← hrelated.known id _ hknown, ← hrelated.distances, hd]
  obtain ⟨l, a, b, -, ha, hp, -⟩ := h.inner x d hdistance
  have hpos : 0 < a := (hrelated.inside l _ hp).1
  refine ⟨hdistance, a, ha, ?_, Environment.exists_ancestor ha⟩
  exact fun hglobal => Nat.ne_of_gt hpos (List.mem_singleton.mp hglobal)

/-- Where a variable is read, its table has it. -/
theorem Holds.localAt_reference (h : Holds (.expr own (.reference id name)) m)
    (hd : m.distances[id]? = some d) :
    ∃ a v, LocalAt m.current d a ∧ m.store.readTable a name.lexeme = some v ∧
      m.store.getAt m.current d name = .ok v := by
  cases h with
  | expr hrelated hsees hawaits hscoped =>
    cases hscoped with
    | reference hknown hready =>
      obtain ⟨hdistance, a, ha, hlocal⟩ := hsees.fits.localAt hrelated hknown hd
      -- a name that waits for its own initializer is declared and not ready, so it would not be
      -- read
      have hown : own ≠ some name.lexeme := by
        intro hown
        obtain ⟨scope, outer, -, -, -, rfl, -, hdeclared, -⟩ := hawaits.unset _ hown
        exact hready scope rfl hdeclared
      obtain ⟨a', ha', hsome⟩ := hawaits.isSome_iff hsees.fits hrelated hdistance
      rw [ha] at ha'
      cases ha'
      obtain ⟨v, hv⟩ := Option.isSome_iff_exists.mp (hsome.mpr hown)
      refine ⟨a, v, hlocal, hv, ?_⟩
      simp [Store.getAt, Store.getAt?, Store.ownerAt?, ha, Option.filter, Store.binds, hv]

/-- Where a variable is assigned to, its table is there, before the value is evaluated and after. -/
theorem Holds.localAt_assign {value : Expr} (h : Holds (.expr own (.assign id name value)) m)
    (hd : m.distances[id]? = some d) :
    ∃ a, LocalAt m.current d a ∧ ∀ {n : Nat} {v : LoxLang.Value} {m' : Machine},
      LoxLang.evaluate n value m = .ok v m' →
      m'.current = m.current ∧ m'.distances[id]? = some d := by
  cases h with
  | expr hrelated hsees hawaits hscoped =>
    cases hscoped with
    | assign hvalue hknown =>
      obtain ⟨-, a, -, hlocal⟩ := hsees.fits.localAt hrelated hknown hd
      refine ⟨a, hlocal, fun hevaluated => ?_⟩
      obtain ⟨W', r', -, hkeeps, hrelated', hcurrent, -⟩ :=
        exists_of_evaluate hrelated hsees hvalue hevaluated
      refine ⟨hcurrent, ?_⟩
      rw [hrelated'.distances, hkeeps.distances, ← hrelated.distances, hd]

end

/-- In the run of a source that is found in order, whatever the session has run before: where a use with
a recorded distance is evaluated, there are that many scopes, and what stands there is not the global
table. If the use is a read, that table has the name, and looking for it at the distance gives its
value; if it is an assignment, all this still stands when the value has been evaluated. -/
theorem distance_fits {output diagnostics : Stream} {s s' : LoxLang.Session} {text : String}
    {program : List Stmt} (hreachable : s.Reachable output diagnostics)
    (hready : s.prepare text = (some program, s')) (fuel : Nat) :
    (∀ {n : Nat} {own : Option String} {id : ReferenceId} {name : Token} {m : Machine} {d : Nat},
      Begins fuel (.stmts program) s'.machine n (.expr own (.reference id name)) m →
      m.distances[id]? = some d →
      ∃ a v, LocalAt m.current d a ∧ m.store.readTable a name.lexeme = some v ∧
        m.store.getAt m.current d name = .ok v) ∧
    ∀ {n : Nat} {own : Option String} {id : ReferenceId} {name : Token} {value : Expr} {m : Machine}
      {d : Nat},
      Begins fuel (.stmts program) s'.machine n (.expr own (.assign id name value)) m →
      m.distances[id]? = some d →
      ∃ a, LocalAt m.current d a ∧ ∀ {k : Nat} {v : LoxLang.Value} {m' : Machine},
        LoxLang.evaluate k value m = .ok v m' →
        m'.current = m.current ∧ m'.distances[id]? = some d := by
  have hprogram := holds_program hreachable hready
  constructor
  · intro n own id name m d hbegins hd
    exact (holds_begins hprogram hbegins).localAt_reference hd
  · intro n own id name value m d hbegins hd
    exact (holds_begins hprogram hbegins).localAt_assign hd

def leftBlock : String := "let g; \x7b let a = nil; fun f() \x7b a; \x7d g = f; \x7d g();"

def leftUse : Expr := .reference 0 ⟨.identifier, "a", 1⟩

def leftBody : List Stmt :=
  [.declare ⟨.identifier, "a", 1⟩ (some (.literal .nil)),
    .function ⟨.identifier, "f", 1⟩ [] [.expression leftUse],
    .expression (.assign 3 ⟨.identifier, "g", 1⟩ (.reference 2 ⟨.identifier, "f", 1⟩))]

def leftCall : Expr := .call (.reference 4 ⟨.identifier, "g", 1⟩) ⟨.symbol .rightParen, ")", 1⟩ []

def leftProgram : List Stmt :=
  [.declare ⟨.identifier, "g", 1⟩ none, .block leftBody, .expression leftCall]

theorem statements_leftBlock : (Front.ofText 0 leftBlock).statements = leftProgram := by
  unfold leftBlock leftProgram leftBody leftCall leftUse
  cbv

theorem accepted_leftBlock : Accepted leftBlock := by decide +kernel

def leftMachine : Machine :=
  { Machine.start .unlimited fun _ => .ok 0 with distances := (resolve ∅ leftProgram).distances }

theorem prepare_leftBlock : ∃ s,
    (LoxLang.Session.start .unlimited .unlimited fun _ => .ok 0).prepare leftBlock =
      (some leftProgram, s) ∧ s.machine = leftMachine := by
  refine ⟨_, LoxLang.Session.prepare_of_accepted accepted_leftBlock rfl |>.trans
    (congrArg (fun ss => (some ss, _)) statements_leftBlock), ?_⟩
  exact congrArg (fun ss => { Machine.start .unlimited fun _ => .ok 0 with
    distances := (resolve ∅ ss).distances }) statements_leftBlock

/-- The function is called once its block has been left, and its use of `a` is then evaluated. -/
theorem begins_leftUse : ∃ m, Begins 13 (.stmts leftProgram) leftMachine 6 (.expr none leftUse) m ∧
    m.distances[0]? = some 1 := by
  have hruns : ∃ m₁ m₂ m₃ f,
      LoxLang.execute 12 (.declare ⟨.identifier, "g", 1⟩ none) leftMachine = .ok () m₁ ∧
      LoxLang.execute 11 (.block leftBody) m₁ = .ok () m₂ ∧
      LoxLang.evaluate 8 (.reference 4 ⟨.identifier, "g", 1⟩) m₂ = .ok (.function f) m₂ ∧
      f.declaration = ⟨⟨.identifier, "f", 1⟩, [], [.expression leftUse]⟩ ∧
      Run.bindArguments f.declaration.params [] (m₂.enter f.environment) = .ok () m₃ ∧
      m₃.distances[0]? = some 1 := ⟨_, _, _, _, rfl, rfl, rfl, rfl, rfl, rfl⟩
  obtain ⟨m₁, m₂, m₃, f, hlet, hblock, hcallee, hdeclaration, hbound, hdistance⟩ := hruns
  have hcall : Begins 13 (.stmts leftProgram) leftMachine 9 (.expr none leftCall) m₂ :=
    (((Begins.itself.call (.laterStmts hlet)).call (.laterStmts hblock)).call .firstStmt).call
      .expression
  have hbody := hcall.call (.body hcallee rfl (by rw [hdeclaration]; rfl) hbound)
  rw [hdeclaration] at hbody
  exact ⟨m₃, (hbody.call .firstStmt).call .expression, hdistance⟩

theorem distance_fits_leftBlock :
    (LoxLang.Session.start .unlimited .unlimited fun _ => .ok 0).Reachable .unlimited .unlimited ∧
    ∃ s m a v, (LoxLang.Session.start .unlimited .unlimited fun _ => .ok 0).prepare leftBlock =
        (some leftProgram, s) ∧
      Begins 13 (.stmts leftProgram) s.machine 6 (.expr none leftUse) m ∧
      m.distances[0]? = some 1 ∧ LocalAt m.current 1 a ∧
      m.store.getAt m.current 1 ⟨.identifier, "a", 1⟩ = .ok v := by
  obtain ⟨s, hready, hmachine⟩ := prepare_leftBlock
  obtain ⟨m, hbegins, hdistance⟩ := begins_leftUse
  rw [← hmachine] at hbegins
  obtain ⟨a, v, hlocal, -, hget⟩ := (distance_fits (.start _) hready 13).1 hbegins hdistance
  exact ⟨.start _, s, m, a, v, hready, hbegins, hdistance, hlocal, hget⟩

end Lexical

end LoxLang
