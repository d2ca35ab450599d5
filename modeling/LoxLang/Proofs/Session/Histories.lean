import LoxLang.Proofs.Running.Histories
import LoxLang.Proofs.Session.Runs

/-!
Which functions are the same. A session has a history of the executions of function declarations in all of its
runs; two function values are equal if and only if they stem from one and the same of these executions, wherever
they have been stored and handed on since. Main statement: `same_iff_oneExecution`.
-/
namespace LoxLang

open Terms

/-- The function is the one that the execution at a place in the history has made. -/
def StemsFrom (history : List Closure) (f : Closure) (i : Nat) : Prop := history[i]? = some f

/-- Functions stem from executions in the history, and these tell them apart. -/
structure ToldApart (history : List Closure) (m : Machine) : Prop where
  stem : ∀ a x f, m.store.readTable a x = some (.function f) → ∃ i, StemsFrom history f i
  same : ∀ i j f g, StemsFrom history f i → StemsFrom history g j →
    ((ValueOf.function f).same (.function g) = true ↔ i = j)
  alike : ∀ i j f g, StemsFrom history f i → StemsFrom history g j →
    (ValueOf.function f).same (.function g) = true →
    f.declaration = g.declaration ∧ f.environment = g.environment ∧
      ∀ paren vs runBody, Run.call paren (.function f) vs runBody = Run.call paren (.function g) vs runBody

theorem Numbered.same_iff {history : List Closure} (h : Numbered history) {i j : Nat} {f g : Closure}
    (hf : StemsFrom history f i) (hg : StemsFrom history g j) :
    (ValueOf.function f).same (.function g) = true ↔ i = j := by
  show (f.identity == g.identity) = true ↔ i = j
  rw [beq_iff_eq, h i f hf, h j g hg]

theorem Terms.Holds.toldApart {history : List Closure} {m : Machine} (h : (ofHistory history).Holds m) :
    ToldApart history m where
  stem a x f hread := List.mem_iff_getElem?.mp (h.stored a x (.function f) hread)
  same _ _ _ _ hf hg := h.count.2.same_iff hf hg
  alike i j f g hf hg hsame := by
    have hij := (h.count.2.same_iff hf hg).mp hsame
    subst hij
    obtain rfl : f = g := Option.some.inj (hf.symm.trans hg)
    exact ⟨rfl, rfl, fun _ _ _ => rfl⟩

section

variable {k : Nat} {own : Option String} {left right : Expr} {operator : Token} {v w : Value}
  {m m₁ m₂ : Machine}

theorem evaluate_binary_of_operands (hleft : evaluate k left m = .ok v m₁)
    (hright : evaluate k right m₁ = .ok w m₂) :
    evaluate (k + 1) (.binary left operator right) m =
      Run.orStop operator (binaryResult operator.kind v w) m₂ := by
  rw [evaluate, bind_of_ok hleft, bind_of_ok hright]

/-- `l != r` is evaluated as `!(l == r)`. -/
theorem evaluate_bangEqual (k : Nat) (left right : Expr) {equal unequal bang : Token}
    (hequal : equal.kind = .symbol .equalEqual) (hunequal : unequal.kind = .symbol .bangEqual)
    (hbang : bang.kind = .symbol .bang) :
    evaluate (k + 1) (.binary left unequal right) =
      evaluate (k + 2) (.unary bang (.binary left equal right)) := by
  rw [evaluate, evaluate, evaluate]
  simp only [binaryResult, unaryResult, hequal, hunequal, hbang, Run.orStop, bind_assoc, pure_bind,
    ValueOf.isTruthy]

/-- Two operands that are functions are equal if and only if they stem from the same execution so far. -/
theorem compare_executions {history : List Closure} (hm : (ofHistory history).Holds m) {f g : Closure}
    (hleft : evaluate k left m = .ok (.function f) m₁)
    (hright : evaluate k right m₁ = .ok (.function g) m₂)
    (hequal : operator.kind = .symbol .equalEqual) :
    let compared := history ++ made k (.expr own left) m ++ made k (.expr own right) m₁
    (∃ i, StemsFrom compared f i) ∧ (∃ j, StemsFrom compared g j) ∧
      ∀ i j, StemsFrom compared f i → StemsFrom compared g j →
        evaluate (k + 1) (.binary left operator right) m = .ok (.bool (decide (i = j))) m₂ := by
  intro compared
  -- the left function may be one that is made while the left operand is evaluated, and so may the right one
  have hfirst := (recounting k).evaluate own left history m hm
  rw [hleft] at hfirst
  obtain ⟨hf, hm₁⟩ := hfirst
  have hsecond := (recounting k).evaluate own right _ m₁ hm₁
  rw [hright] at hsecond
  obtain ⟨hg, hm₂⟩ := hsecond
  have hf' : f ∈ compared := List.mem_append_left (made k (.expr own right) m₁) hf
  refine ⟨List.mem_iff_getElem?.mp hf', List.mem_iff_getElem?.mp hg, ?_⟩
  intro i j hi hj
  have hsame : (ValueOf.function f).same (.function g) = decide (i = j) := by
    rw [Bool.eq_iff_iff, decide_eq_true_iff]
    exact hm₂.count.2.same_iff hi hj
  rw [evaluate_binary_of_operands hleft hright]
  simp only [binaryResult, hequal, hsame]
  rfl

end

namespace Session

def madeByText (fuel : Nat) (text : String) (s : Session) : List Closure :=
  match s.prepare text with
  | (some program, ready) => made fuel (.stmts program) ready.machine
  | (none, _) => []

/-- Sessions that a session started on the two streams can become, with all functions that its runs have made. -/
inductive Chronicle (output diagnostics : Stream) : List Closure → Session → Prop
  | start (clock : Clock) :
      Chronicle output diagnostics [] (.start output diagnostics clock)
  | run {history : List Closure} {s s' : Session} {fuel : Nat} {text : String}
      (h : Chronicle output diagnostics history s) (hrun : s.run fuel text = some s') :
      Chronicle output diagnostics (history ++ madeByText fuel text s) s'
  | reset {history : List Closure} {s : Session} (h : Chronicle output diagnostics history s) :
      Chronicle output diagnostics history s.reset

variable {output diagnostics : Stream} {history : List Closure} {s : Session}

/-- Every reachable session has a history. -/
theorem exists_chronicle (h : Reachable output diagnostics s) :
    ∃ history, Chronicle output diagnostics history s := by
  induction h with
  | start clock => exact ⟨[], .start clock⟩
  | run _ hrun ih =>
    obtain ⟨history, h⟩ := ih
    exact ⟨_, h.run hrun⟩
  | reset _ ih =>
    obtain ⟨history, h⟩ := ih
    exact ⟨history, h.reset⟩

/-- Before a text is run, only distances are recorded. -/
theorem holds_prepare {T : Terms} (h : T.Holds s.machine) (text : String) :
    T.Holds (s.prepare text).2.machine := by
  have hprepared := prepared s text
  generalize s.prepare text = result at hprepared
  cases hprepared with
  | unread reporter => exact h
  | unresolved reporter hread => exact ⟨h.stored, h.count⟩
  | ready hread hresolved hlatch => exact ⟨h.stored, h.count⟩

/-- The history of a session has all functions that are stored. -/
theorem Chronicle.holds (h : Chronicle output diagnostics history s) :
    (ofHistory history).Holds s.machine := by
  induction h with
  | start clock => exact holds_start output clock ⟨rfl, numbered_nil⟩
  | @run history s s' fuel text _ hrun ih =>
    have hready := holds_prepare ih text
    rw [madeByText]
    rcases prepare_of_run hrun with hprepare | ⟨program, ready, hprepare, hmachine⟩
    · rw [hprepare] at hready ⊢
      rw [List.append_nil]
      exact hready
    · rw [hprepare] at hready ⊢
      rw [hmachine, ← reached_executeAll]
      exact ((recounting fuel).executeAll program history ready.machine hready).holds
  | reset _ ih => exact ih

/-- The history of a session is made up of all executions of function declarations in its runs. At every time,
between the runs and in the course of each, every function that is stored stems from an execution so far; two
functions are equal if and only if they stem from the same one, and then they are called alike. A program that
compares two functions compares these executions, and `!=` is evaluated as the negation of `==`, whatever the
operands. -/
theorem same_iff_oneExecution :
    (∀ n t m f, f ∈ made n t m ↔ ∃ k name params body m',
      Begins n t m (k + 1) (.stmt (.function name params body)) m' ∧
        f = m'.closure ⟨name, params, body⟩) ∧
    (∀ output diagnostics s, Reachable output diagnostics s →
      ∃ history, Chronicle output diagnostics history s) ∧
    (∀ output diagnostics history s, Chronicle output diagnostics history s →
      ToldApart history s.machine ∧
      ∀ fuel text program ready, s.prepare text = (some program, ready) →
      ∀ before moment after, moments fuel (.stmts program) ready.machine = before ++ moment :: after →
        let sofar := history ++ before.filterMap Moment.made?
        ToldApart sofar moment.machine ∧
        ∀ k own left operator right m, moment = ⟨k + 1, .expr own (.binary left operator right), m⟩ →
        operator.kind = .symbol .equalEqual →
        ∀ f g m₁ m₂, evaluate k left m = .ok (.function f) m₁ →
        evaluate k right m₁ = .ok (.function g) m₂ →
          let compared := sofar ++ made k (.expr own left) m ++ made k (.expr own right) m₁
          (∃ i, StemsFrom compared f i) ∧ (∃ j, StemsFrom compared g j) ∧
            ∀ i j, StemsFrom compared f i → StemsFrom compared g j →
              evaluate (k + 1) (.binary left operator right) m = .ok (.bool (decide (i = j))) m₂) ∧
    ∀ k left right (equal unequal bang : Token), equal.kind = .symbol .equalEqual →
      unequal.kind = .symbol .bangEqual → bang.kind = .symbol .bang →
      evaluate (k + 1) (.binary left unequal right) =
        evaluate (k + 2) (.unary bang (.binary left equal right)) := by
  refine ⟨fun _ _ _ _ => mem_made, fun _ _ _ => exists_chronicle, ?_, ?_⟩
  · intro output diagnostics history s h
    refine ⟨h.holds.toldApart, ?_⟩
    intro fuel text program ready hprepare before moment after hmoments sofar
    have hready := holds_prepare h.holds text
    rw [hprepare] at hready
    have hmoment := holds_of_moments hready hmoments
    refine ⟨hmoment.toldApart, ?_⟩
    rintro k own left operator right m rfl hequal f g m₁ m₂ hleft hright
    exact compare_executions hmoment hleft hright hequal
  · intro k left right equal unequal bang hequal hunequal hbang
    exact evaluate_bangEqual k left right hequal hunequal hbang

def globalFunction? (s : Session) (x : String) : Option Closure :=
  match s.machine.store.readTable 0 x with
  | some (.function f) => some f
  | _ => none

theorem readTable_of_globalFunction? {x : String} {f : Closure} (h : s.globalFunction? x = some f) :
    s.machine.store.readTable 0 x = some (.function f) := by
  unfold globalFunction? at h
  split at h
  · next hread =>
    cases h
    exact hread
  · cases h

/-- The declaration of an inner function is executed once in each of two runs. The function of the first run is
stored under another name in the second run. -/
theorem same_iff_oneExecution_secondRun :
    ∃ history s f g, Chronicle .unlimited .unlimited history s ∧
      s.globalFunction? "a" = some f ∧ s.globalFunction? "b" = some g ∧ s.globalFunction? "c" = some f ∧
      f.declaration.name.lexeme = g.declaration.name.lexeme ∧
      ∃ i j, StemsFrom history f i ∧ StemsFrom history g j ∧ i ≠ j := by
  have hruns : ((start .unlimited .unlimited fun _ => .ok 0).run 20
      "fun make() \x7b fun inner() \x7b \x7d return inner; \x7d let a = make();").bind (fun s =>
        (s.run 20 "let b = make(); let c = a;").map fun s => ["a", "b", "c"].map fun x =>
          (s.globalFunction? x).map fun f => (f.identity, f.declaration.name.lexeme)) =
      some [some (1, "inner"), some (2, "inner"), some (1, "inner")] := by
    decide +kernel
  obtain ⟨s₁, hfirst, hsecond⟩ := Option.bind_eq_some_iff.mp hruns
  obtain ⟨s, hsecond, hnames⟩ := Option.map_eq_some_iff.mp hsecond
  simp only [List.map_cons, List.map_nil, List.cons.injEq, Option.map_eq_some_iff, Prod.mk.injEq] at hnames
  obtain ⟨⟨f, ha, hf, hname⟩, ⟨g, hb, hg, hname'⟩, ⟨f', hc, hf', -⟩, -⟩ := hnames
  have hchronicle := ((Chronicle.start fun _ => .ok 0).run hfirst).run hsecond
  have hapart := (same_iff_oneExecution.2.2.1 .unlimited .unlimited _ s hchronicle).1
  obtain ⟨i, hi⟩ := hapart.stem 0 "a" f (readTable_of_globalFunction? ha)
  obtain ⟨j, hj⟩ := hapart.stem 0 "b" g (readTable_of_globalFunction? hb)
  obtain ⟨i', hi'⟩ := hapart.stem 0 "c" f' (readTable_of_globalFunction? hc)
  have hij : i ≠ j := by
    intro h
    have hsame := (hapart.same i j f g hi hj).mpr h
    have hsame : (f.identity == g.identity) = true := hsame
    rw [hf, hg] at hsame
    cases hsame
  have hii' : i = i' := by
    refine (hapart.same i i' f f' hi hi').mp ?_
    show (f.identity == f'.identity) = true
    rw [hf, hf']
    rfl
  subst hii'
  obtain rfl : f = f' := Option.some.inj (hi.symm.trans hi')
  exact ⟨_, s, f, g, hchronicle, ha, hb, hc, hname.trans hname'.symm, i, j, hi, hj, hij⟩

end Session

end LoxLang
