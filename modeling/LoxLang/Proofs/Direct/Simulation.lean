import LoxLang.Proofs.Direct.Simulates

/-!
The machine, which runs the while form of each `for`, does what the program does as it is written. Main
statement: `follows`, by induction on the fuel of the machine; the other side may have more. The block
around a loop and the block around body and increment are a table each for the machine and nothing to
the names in sight, so that what a name stands for in a clause is the same on both sides.
-/
namespace LoxLang.Direct

open Lexical (Location Names Env World Scopes Related Same SameAll Innermost Within ScopedExpr
  ScopedStmt ScopedStmts ScopedFunction)
open Lexical.World (Keeps Extends)

structure Follows (n : Nat) : Prop where
  evaluate : ∀ {k W σ e names x}, n ≤ k → Lexical.Fits W σ e names → ScopedExpr W.known σ x →
    Simulates (fun _ => False) W e (LoxLang.evaluate n x) (evaluate k names x.withoutIds)
      fun W' v v' => Same W' v v'.toLexical
  evaluateAll : ∀ {k W σ e names xs}, n ≤ k → Lexical.Fits W σ e names →
    (∀ x ∈ xs, ScopedExpr W.known σ x) →
    Simulates (fun _ => False) W e (LoxLang.evaluateAll n xs)
      (evaluateAll k names (xs.map Expr.withoutIds))
      fun W' vs vs' => SameAll W' vs (vs'.map Value.toLexical)
  execute : ∀ {k W σ e names s} {x : Statement}, n ≤ k → Lexical.Fits W σ e names → σ.Settled →
    ScopedStmt W.known σ s → s.withoutIds = x.parsed →
    Simulates (fun _ => False) W e (LoxLang.execute n s) (execute k names x) fun _ _ _ => True
  executeAll : ∀ {k W σ e env ss ds}, n ≤ k → Within W σ e env → ScopedStmts W.known σ ss →
    ss.map Stmt.withoutIds = parsedAll ds →
    Simulates (· ∈ e.head?) W e (LoxLang.executeAll n ss) (executeAll k env ds) fun _ _ _ => True

section

variable {β : Type} {A : Address → Prop} {W : World} {e : Environment} {q : Eval β}

theorem simulates_evaluate_zero {x : Expr} {Q : World → LoxLang.Value → β → Prop} :
    Simulates A W e (LoxLang.evaluate 0 x) q Q := by
  rw [LoxLang.evaluate]
  exact .exhausted

theorem simulates_execute_zero {s : Stmt} {Q : World → Unit → β → Prop} :
    Simulates A W e (LoxLang.execute 0 s) q Q := by
  rw [LoxLang.execute]
  exact .exhausted

theorem simulates_executeAll_zero {ss : List Stmt} {Q : World → Unit → β → Prop} :
    Simulates A W e (LoxLang.executeAll 0 ss) q Q := by
  rw [LoxLang.executeAll]
  exact .exhausted

end

/-- Whoever has more than `n` units of fuel has one to use up, and has at least `n` left then. -/
theorem exists_less_fuel {n k : Nat} (h : n + 1 ≤ k) : ∃ j, k = j + 1 ∧ n ≤ j :=
  ⟨k - 1, by omega, by omega⟩

theorem evaluateAll_nil (n : Nat) : LoxLang.evaluateAll (n + 1) [] = pure [] := rfl

theorem executeAll_nil (n : Nat) : LoxLang.executeAll (n + 1) [] = pure () := rfl

theorem follows_zero : Follows 0 where
  evaluate _ _ _ := simulates_evaluate_zero
  evaluateAll _ _ _ := by
    rw [LoxLang.evaluateAll]
    exact .exhausted
  execute _ _ _ _ _ := simulates_execute_zero
  executeAll _ _ _ _ := simulates_executeAll_zero

section

variable {n k : Nat} {A : Address → Prop} {W : World} {σ : Scopes} {e : Environment}
  {names : Names} {env : Env}

theorem simulates_stop {α β : Type} {Q : World → α → β → Prop} (t : Token)
    (cause : RuntimeError.Cause) : Simulates A W e (Run.stop t cause) (stop t cause) Q :=
  .throw (.runtime _)

/-- What is run in a new scope starts where the scope has no names yet. -/
theorem simulates_inside {α β : Type} {p : Run α} {q : Eval β} {Q : World → α → β → Prop}
    {outer : Environment} (hfits : Lexical.Fits W σ outer names) (hsettled : σ.Settled)
    (h : Within W.addTable (.empty :: σ) (W.tables :: outer) (.inside names) →
      Simulates (· ∈ (W.tables :: outer).head?) W.addTable (W.tables :: outer) p q Q) :
    Simulates A W e (Run.inNewScope outer p) q Q := by
  refine simulates_newScope fun m r hrelated => ?_
  refine (h (Within.enter hfits hsettled hrelated)).mono (fun a ha => .inr ?_) fun _ _ _ _ h => h
  exact (Option.some.inj ha).symm

theorem follows_body (ih : Follows n) (hle : n ≤ k) {d : FunctionDecl} {body : List Declaration}
    (hbody : d.body.map Stmt.withoutIds = parsedAll body) {outer : Environment}
    (hfits : Lexical.Fits W σ outer names) (hsettled : σ.Settled)
    (hscoped : ScopedFunction W.known σ d) {vs : List LoxLang.Value} {vs' : List Value}
    (hvs : SameAll W vs (vs'.map Value.toLexical))
    (harity : d.params.length = vs.length) :
    Simulates A W e
      (Run.inNewScope outer do
        Run.bindArguments d.params vs
        LoxLang.executeAll n d.body)
      (do
        let env ← bindArguments (.inside names) d.params vs'
        executeAll k env body) fun _ _ _ => True := by
  refine simulates_inside hfits hsettled fun hwithin => ?_
  have hargs := SameAll.mono hvs (Lexical.World.extends_addTable W)
  have hbound := simulates_bindArguments hargs harity hscoped.params hwithin
  refine hbound.bind fun W' _ env' hkeeps hwithin' => ?_
  exact ih.executeAll hle hwithin' (hscoped.body.mono fun id d hid => hkeeps.known ▸ hid) hbody

/-- A function value of the machine has the declaration that was written, up to ids. -/
theorem exists_of_sameFunction {c : LoxLang.Closure} {f : Closure}
    (h : Lexical.SameFunction W c f.toLexical) : ∃ d σ e, c = ⟨f.identity, d, e⟩ ∧
      d.params = f.params ∧ d.body.map Stmt.withoutIds = parsedAll f.body ∧
      Lexical.Fits W σ e f.names ∧ σ.Settled ∧ ScopedFunction W.known σ d := by
  generalize hf : f.toLexical = f' at h
  obtain ⟨identity, hfits, hsettled, hscoped⟩ := h
  injection hf with hidentity hdeclaration hnames
  injection hdeclaration with hname hparams hbody
  subst hidentity hnames
  exact ⟨_, _, _, rfl, hparams.symm, hbody.symm, hfits, hsettled, hscoped⟩

/-- A call runs the body with one unit of fuel less, among the names at the declaration. -/
theorem follows_call (ih : Follows n) (hle : n ≤ k) (paren : Token) {callee : LoxLang.Value}
    {callee' : Value} (hcallee : Same W callee callee'.toLexical) {vs : List LoxLang.Value}
    {vs' : List Value} (hvs : SameAll W vs (vs'.map Value.toLexical)) :
    Simulates A W e (Run.call paren callee vs (LoxLang.executeAll n))
      (call paren callee' vs' (executeAll k)) fun W' v v' => Same W' v v'.toLexical := by
  have hlength : vs.length = (vs'.map Value.toLexical).length := hvs.length_eq
  cases callee' with
  | native f =>
    cases hcallee
    exact .ofMirrors (quiet_callNative paren f vs) (mirrors_callNative paren f vs')
      (Lexical.simulates_callNative paren f hvs)
  | function f =>
    cases hcallee with
    | function hfunction =>
      obtain ⟨d, σ, outer, rfl, hparams, hbody, hfits, hsettled, hscoped⟩ :=
        exists_of_sameFunction hfunction
      rw [List.length_map] at hlength
      have harity := Simulates.ofMirrors (quiet_orStop paren _) (mirrors_checkArity paren _ _)
        (Lexical.simulates_checkArity (A := A) (W := W) (e := e) paren d.params.length hlength)
      obtain ⟨identity, name, _, body, inSight⟩ := f
      obtain rfl := hparams
      refine harity.bind fun W' _ _ hkeeps harity =>
        simulates_catchReturn (Q := fun _ _ _ => True) ?_
      have hle' := hkeeps.extends
      exact follows_body ih hle hbody (hfits.mono hle') hsettled (hscoped.mono hle'.known)
        (SameAll.mono hvs hle') harity
  | nil | bool b | number x | string s =>
    cases hcallee
    exact simulates_stop paren _

/-- One unit of fuel more for expressions, one case for each form. -/
theorem follows_evaluate (ih : Follows n) (hfuel : n + 1 ≤ k) {x : Expr}
    (h : Lexical.Fits W σ e names) (hx : ScopedExpr W.known σ x) :
    Simulates (fun _ => False) W e (LoxLang.evaluate (n + 1) x) (evaluate k names x.withoutIds)
      fun W' v v' => Same W' v v'.toLexical := by
  obtain ⟨k, rfl, hle⟩ := exists_less_fuel hfuel
  cases hx with
  | literal value =>
    rw [LoxLang.evaluate, Expr.withoutIds_literal, evaluate]
    refine .pure ?_
    rw [Value.toLexical, map_ofLiteral]
    exact alike_ofLiteral value
  | grouping hinner =>
    rw [LoxLang.evaluate, Expr.withoutIds_grouping, evaluate]
    exact ih.evaluate hle h hinner
  | unary hright =>
    rw [LoxLang.evaluate, Expr.withoutIds_unary, evaluate]
    exact .bind (ih.evaluate hle h hright) fun W' v v' hkeeps hv =>
      .ofMirrors (quiet_orStop _ _) (mirrors_orStop _ (unaryResult_map _ v' _))
        (Lexical.simulates_orStop _ (resultAlike_unaryResult _ hv))
  | @binary _ _ operator hleft hright =>
    rw [LoxLang.evaluate, Expr.withoutIds_binary, evaluate]
    refine .bind (ih.evaluate hle h hleft) fun W₁ v v' hkeeps hv => ?_
    have hright := hright.mono hkeeps.extends.known
    refine .bind (ih.evaluate hle (h.mono hkeeps.extends) hright) fun W₂ w w' hkeeps' hw => ?_
    have hresult := resultAlike_binaryResult (Lexical.lookalike_sameFunction W₂) operator.kind
      (Same.mono hv hkeeps'.extends) hw
    exact .ofMirrors (quiet_orStop _ _)
      (mirrors_orStop _ (binaryResult_map _ v' w' lookalike_toLexical _))
      (Lexical.simulates_orStop _ hresult)
  | logical hleft hright =>
    rw [LoxLang.evaluate, Expr.withoutIds_logical, evaluate]
    refine .bind (ih.evaluate hle h hleft) fun W₁ v v' hkeeps hv => ?_
    have hright := hright.mono hkeeps.extends.known
    rw [decides_eq _ hv, decides_map]
    exact .ite (.pure hv) (ih.evaluate hle (h.mono hkeeps.extends) hright)
  | reference hknown _ =>
    rw [LoxLang.evaluate, Expr.withoutIds_reference, evaluate]
    exact .ofMirrors (quiet_read _ _) (mirrors_read names _)
      (Lexical.simulates_read h hknown)
  | assign hvalue hknown =>
    rw [LoxLang.evaluate, Expr.withoutIds_assign, evaluate]
    refine .bind (ih.evaluate hle h hvalue) fun W₁ v v' hkeeps hv => ?_
    have hfits := h.mono hkeeps.extends
    have hknown := hkeeps.extends.known _ _ hknown
    have hassign : Lexical.Simulates (fun _ => False) W₁ e _
        (Lexical.assign (.inside names) _ v'.toLexical) _ :=
      Lexical.simulates_assign hfits hknown hv
    refine .bind (.ofMirrors (quiet_assign _ _ v) (mirrors_assign names _ v') hassign) ?_
    exact fun W₂ _ _ hkeeps' _ => .pure (hv.mono hkeeps'.extends)
  | call hcallee harguments =>
    rw [LoxLang.evaluate, Expr.withoutIds_call, evaluate]
    refine .bind (ih.evaluate hle h hcallee) fun W₁ v v' hkeeps hv => ?_
    have harguments := fun x hx => (harguments x hx).mono hkeeps.extends.known
    refine .bind (ih.evaluateAll hle (h.mono hkeeps.extends) harguments)
      fun W₂ vs vs' hkeeps' hvs => ?_
    exact follows_call ih hle _ (hv.mono hkeeps'.extends) hvs

/-- One unit of fuel more for the arguments of a call. -/
theorem follows_evaluateAll (ih : Follows n) (hfuel : n + 1 ≤ k) {xs : List Expr}
    (h : Lexical.Fits W σ e names) (hxs : ∀ x ∈ xs, ScopedExpr W.known σ x) :
    Simulates (fun _ => False) W e (LoxLang.evaluateAll (n + 1) xs)
      (evaluateAll k names (xs.map Expr.withoutIds))
      fun W' vs vs' => SameAll W' vs (vs'.map Value.toLexical) := by
  obtain ⟨k, rfl, hle⟩ := exists_less_fuel hfuel
  cases xs with
  | nil =>
    rw [List.map_nil, evaluateAll_nil]
    exact .pure .nil
  | cons x xs =>
    rw [List.map_cons, LoxLang.evaluateAll, evaluateAll]
    refine .bind (ih.evaluate hle h (hxs x List.mem_cons_self)) fun W₁ v v' hkeeps hv => ?_
    have hrest := fun y hy => (hxs y (List.mem_cons_of_mem x hy)).mono hkeeps.extends.known
    refine .bind (ih.evaluateAll hle (h.mono hkeeps.extends) hrest) fun W₂ vs vs' hkeeps' hvs => ?_
    exact .pure (.cons (hv.mono hkeeps'.extends) hvs)

section

variable {β δ : Type} {s : Stmt} {ss : List Stmt} {q : Eval β} {g : β → Eval δ}
  {P Q : World → Unit → β → Prop} {R : World → Unit → δ → Prop}

theorem simulates_cons (hfirst : ∀ i < n, Simulates A W e (LoxLang.execute i s) q P)
    (hrest : ∀ i < n, ∀ W' b, Keeps A W W' → P W' () b →
      Simulates A W' e (LoxLang.executeAll i ss) (g b) R) :
    Simulates A W e (LoxLang.executeAll n (s :: ss)) (q >>= g) R := by
  cases n with
  | zero => exact simulates_executeAll_zero
  | succ n =>
    rw [LoxLang.executeAll]
    exact (hfirst n (Nat.lt_succ_self n)).bind fun W' _ b => hrest n (Nat.lt_succ_self n) W' b

theorem simulates_singleton (h : ∀ i < n, Simulates A W e (LoxLang.execute i s) q Q) :
    Simulates A W e (LoxLang.executeAll n [s]) q Q := by
  have hnothing : ∀ i < n, ∀ W' b, Keeps A W W' → Q W' () b →
      Simulates A W' e (LoxLang.executeAll i []) (pure b) Q := by
    intro i _ W' b _ hb
    cases i with
    | zero => exact simulates_executeAll_zero
    | succ i =>
      rw [executeAll_nil]
      exact .pure hb
  have hboth := simulates_cons h hnothing
  rwa [bind_pure] at hboth

/-- A block is run in a new scope where the machine is. -/
theorem simulates_block (h : Simulates A W e (Run.inNewScope e (LoxLang.executeAll n ss)) q Q) :
    Simulates A W e (LoxLang.execute (n + 1) (.block ss)) q Q := by
  rw [LoxLang.execute]
  intro m r hmatched hcurrent
  subst hcurrent
  exact h m r hmatched rfl

end

section

variable {condition : Expr} {body : Stmt} {test : Eval Bool} {round : Eval Unit}

/-- If asking is evaluating the condition and a round is running the body, the repetition is the
loop. -/
theorem simulates_repeatWhile (hle : n ≤ k)
    (htest : ∀ i ≤ n, ∀ W', Keeps (fun _ => False) W W' →
      Simulates (fun _ => False) W' e (LoxLang.evaluate i condition) test
        fun _ v goesOn => v.isTruthy = goesOn)
    (hround : ∀ i ≤ n, ∀ W', Keeps (fun _ => False) W W' →
      Simulates (fun _ => False) W' e (LoxLang.execute i body) round fun _ _ _ => True) :
    Simulates (fun _ => False) W e (LoxLang.execute (n + 1) (.whileLoop condition body))
      (repeatWhile k test round) fun _ _ _ => True := by
  -- on the fuel of the machine, one unit of which is used up by each round
  induction n generalizing k W with
  | zero =>
    rw [LoxLang.execute, LoxLang.evaluate]
    exact .exhausted
  | succ n ih =>
    obtain ⟨k, rfl, hless⟩ := exists_less_fuel hle
    rw [LoxLang.execute, repeatWhile]
    refine (htest (n + 1) (Nat.le_refl _) W (.refl W)).bind fun W₁ v goesOn hkeeps hv => ?_
    rw [hv]
    refine .ite ?_ (.pure trivial)
    refine (hround (n + 1) (Nat.le_refl _) W₁ hkeeps).bind fun W₂ _ _ hkeeps' _ => ?_
    refine ih hless (fun i hi W' hlater => ?_) fun i hi W' hlater => ?_
    · exact htest i (Nat.le_succ_of_le hi) W' ((hkeeps.trans hkeeps').trans hlater)
    · exact hround i (Nat.le_succ_of_le hi) W' ((hkeeps.trans hkeeps').trans hlater)

end

/-- A missing condition is read as one that holds. -/
theorem follows_goesOn (ih : Follows n) (hle : n ≤ k) {x : Expr} {condition : Option Expr}
    (h : Lexical.Fits W σ e names) (hx : ScopedExpr W.known σ x)
    (hsame : x.withoutIds = condition.getD (.literal (.bool true))) :
    Simulates (fun _ => False) W e (LoxLang.evaluate n x) (goesOn (evaluate k) names condition)
      fun _ v goesOn => v.isTruthy = goesOn := by
  cases condition with
  | none =>
    obtain rfl := eq_literal_of_withoutIds hsame
    cases n with
    | zero => exact simulates_evaluate_zero
    | succ n =>
      rw [LoxLang.evaluate, goesOn]
      exact .pure rfl
  | some e =>
    obtain rfl : x.withoutIds = e := hsame
    rw [goesOn]
    exact (ih.evaluate hle h hx).map fun W' v v' _ hv => by rw [hv.isTruthy_eq, isTruthy_map]

/-- The increment of a loop is evaluated for its effects. -/
theorem follows_advance (ih : ∀ i < n, Follows i) (hle : n ≤ k + 1) {s : Stmt} {x : Expr}
    (h : Lexical.Fits W σ e names) (hs : ScopedStmt W.known σ s)
    (hsame : s.withoutIds = .expression x) :
    Simulates (fun _ => False) W e (LoxLang.execute n s) (advance (evaluate k) names (some x))
      fun _ _ _ => True := by
  obtain ⟨x, rfl, rfl⟩ := eq_expression_of_withoutIds hsame
  cases n with
  | zero => exact simulates_execute_zero
  | succ n =>
    cases hs with
    | expression hx =>
      rw [LoxLang.execute, advance]
      have hvalue := (ih n (Nat.lt_succ_self n)).evaluate (Nat.le_of_succ_le_succ hle) h hx
      exact hvalue.bind fun _ _ _ _ _ => .pure trivial

theorem scoped_of_pair {known : Lexical.Known} {s₁ s₂ : Stmt}
    (h : ScopedStmt known σ (.block [s₁, s₂])) :
    ScopedStmt known (.empty :: σ) s₁ ∧ ScopedStmt known (Scopes.after (.empty :: σ) s₁) s₂ := by
  cases h with
  | block hbody =>
    cases hbody with
    | cons hfirst hrest =>
      cases hrest with
      | cons hsecond _ => exact ⟨hfirst, hsecond⟩

/-- Body and increment in one block do what they do one after the other: the body leaves no name behind
that the increment could see. -/
theorem follows_round (ih : ∀ i ≤ n, Follows i) (hle : n ≤ k) {s : Stmt} {x : Statement}
    {increment : Option Expr} (h : Lexical.Fits W σ e names) (hsettled : σ.Settled)
    (hs : ScopedStmt W.known σ s)
    (hsame : s.withoutIds = withIncrement x.parsed increment) :
    Simulates (fun _ => False) W e (LoxLang.execute n s)
      (do
        execute k names x
        advance (evaluate k) names increment) fun _ _ _ => True := by
  cases increment with
  | none =>
    have hbody := (ih n (Nat.le_refl n)).execute hle h hsettled hs hsame
    exact hbody.map (k := fun _ => ()) fun _ _ _ _ _ => trivial
  | some e' =>
    obtain ⟨s₁, s₂, rfl, hs₁, hs₂⟩ := eq_pair_of_withoutIds hsame
    obtain ⟨hfirst, hsecond⟩ := scoped_of_pair hs
    rw [Scopes.after, declaredName?_of_parsed hs₁] at hsecond
    cases n with
    | zero => exact simulates_execute_zero
    | succ n =>
      refine simulates_block (simulates_inside h hsettled fun hwithin => ?_)
      refine simulates_cons (P := fun _ _ _ => True) (fun i hi => ?_) fun i hi W' _ hkeeps _ => ?_
      · exact ((ih i (by omega)).execute (by omega) hwithin.fits hsettled.open hfirst hs₁).weaken
      · refine simulates_singleton fun j hj => ?_
        have hfits := hwithin.fits.mono hkeeps.extends
        have hscoped := hsecond.mono fun id d hid => hkeeps.known ▸ hid
        exact (follows_advance (fun l hl => ih l (by omega)) (by omega) hfits hscoped hs₂).weaken

/-- The while form of a loop does what the loop does once it has been entered. -/
theorem follows_loop (ih : ∀ i < n, Follows i) (hle : n ≤ k + 1) {s : Stmt} {x : Statement}
    {condition increment : Option Expr} (h : Lexical.Fits W σ e names) (hsettled : σ.Settled)
    (hs : ScopedStmt W.known σ s)
    (hsame : s.withoutIds = Grammar.whileForm none condition increment x.parsed) :
    Simulates (fun _ => False) W e (LoxLang.execute n s)
      (repeatWhile k (goesOn (evaluate k) names condition) do
        execute k names x
        advance (evaluate k) names increment) fun _ _ _ => True := by
  cases n with
  | zero => exact simulates_execute_zero
  | succ n =>
    have hle := Nat.le_of_succ_le_succ hle
    rw [whileForm_none] at hsame
    obtain ⟨c, body, rfl, hc, hbody⟩ := eq_whileLoop_of_withoutIds hsame
    cases hs with
    | whileLoop hcondition hscoped _ =>
      refine simulates_repeatWhile hle (fun i hi W' hkeeps => ?_) fun i hi W' hkeeps => ?_
      · exact follows_goesOn (ih i (Nat.lt_succ_of_le hi)) (Nat.le_trans hi hle)
          (h.mono hkeeps.extends) (hcondition.mono hkeeps.extends.known) hc
      · exact follows_round (fun j hj => ih j (Nat.lt_succ_of_le (Nat.le_trans hj hi)))
          (Nat.le_trans hi hle) (h.mono hkeeps.extends) hsettled
          (hscoped.mono hkeeps.extends.known) hbody

/-- A variable without an initializer starts as `nil` on both sides. -/
theorem follows_declareVariable (ih : ∀ i < n, Follows i) (hle : n ≤ k) {s : Stmt} {name : Token}
    {value : Option Expr} (h : Within W σ e env) (hs : ScopedStmt W.known σ s)
    (hsame : s.withoutIds = .declare name value) :
    Simulates (· ∈ e.head?) W e (LoxLang.execute n s)
      (declareVariable (evaluate k) env name value)
      fun W' _ env' => Within W' (σ.after s) e env' := by
  cases n with
  | zero => exact simulates_execute_zero
  | succ n =>
    obtain ⟨value, rfl, rfl⟩ := eq_declare_of_withoutIds hsame
    cases hs with
    | declare hfree =>
      rw [LoxLang.execute, Option.map_none, declareVariable]
      exact simulates_declare (p := Pure.pure .nil) h hfree fun W₁ env₁ done hdeclaring =>
        .pure .nil
    | initialized hfree hx =>
      rw [LoxLang.execute, Option.map_some, declareVariable]
      refine simulates_declare h hfree fun W₁ env₁ done hdeclaring => ?_
      have hvalue := (ih n (Nat.lt_succ_self n)).evaluate (Nat.le_of_succ_le hle)
        hdeclaring.declared.fits (hx.mono hdeclaring.later.known)
      exact hvalue.mono (fun _ => False.elim) fun W₂ v v' _ hv => hv.mono (hdeclaring.finishes W₂)

/-- The first clause of a loop that has one is run in the scope of the loop. -/
theorem follows_enterLoop (ih : ∀ i < n, Follows i) (hle : n ≤ k) {s : Stmt}
    {initializer : Initializer} (h : Within W σ e (.inside names)) (hs : ScopedStmt W.known σ s)
    (hsame : s.withoutIds = initializer.parsed) :
    Simulates (· ∈ e.head?) W e (LoxLang.execute n s)
      (enterLoop (evaluate k) names (some initializer))
      fun W' _ names' => Lexical.Fits W' (σ.after s) e names' ∧ (σ.after s).Settled := by
  cases initializer with
  | declare name value =>
    rw [enterLoop]
    exact (follows_declareVariable ih hle h hs hsame).map fun W' _ env' _ hwithin =>
      ⟨hwithin.fits, hwithin.settled⟩
  | expression x =>
    obtain ⟨x, rfl, rfl⟩ := eq_expression_of_withoutIds hsame
    cases n with
    | zero => exact simulates_execute_zero
    | succ n =>
      cases hs with
      | expression hx =>
        rw [LoxLang.execute, enterLoop]
        have hvalue := (ih n (Nat.lt_succ_self n)).evaluate (Nat.le_of_succ_le hle) h.fits hx
        exact hvalue.weaken.bind fun W' _ _ hkeeps _ =>
          .pure ⟨h.fits.mono hkeeps.extends, h.settled⟩

/-- In the scope of the loop its first clause is run once, and what it declares is in sight of all
rounds. -/
theorem follows_entered (ih : ∀ i < n + 1, Follows i) (hle : n ≤ k) {s₁ s₂ : Stmt} {x : Statement}
    {initializer : Initializer} {condition increment : Option Expr}
    (h : Within W σ e (.inside names)) (hfirst : ScopedStmt W.known σ s₁)
    (hs₁ : s₁.withoutIds = initializer.parsed) (hsecond : ScopedStmt W.known (σ.after s₁) s₂)
    (hs₂ : s₂.withoutIds = Grammar.whileForm none condition increment x.parsed) :
    Simulates (· ∈ e.head?) W e (LoxLang.executeAll n [s₁, s₂])
      (do
        let names ← enterLoop (evaluate k) names (some initializer)
        repeatWhile k (goesOn (evaluate k) names condition) do
          execute k names x
          advance (evaluate k) names increment) fun _ _ _ => True := by
  have hclause : ∀ i < n, Simulates (· ∈ e.head?) W e (LoxLang.execute i s₁)
      (enterLoop (evaluate k) names (some initializer)) _ := fun i hi =>
    follows_enterLoop (fun j hj => ih j (by omega)) (by omega) h hfirst hs₁
  refine simulates_cons hclause fun i hi W' names' hkeeps hentered => ?_
  refine simulates_singleton fun j hj => ?_
  obtain ⟨hfits, hsettled⟩ := hentered
  have hscoped := hsecond.mono hkeeps.extends.known
  exact (follows_loop (fun l hl => ih l (by omega)) (by omega) hfits hsettled hscoped hs₂).weaken

/-- A loop with a first clause is run in a scope of its own. -/
theorem follows_forLoop (ih : ∀ i < n + 1, Follows i) (hle : n ≤ k) {s : Stmt} {x : Statement}
    {initializer : Option Initializer} {condition increment : Option Expr}
    (h : Lexical.Fits W σ e names) (hsettled : σ.Settled) (hs : ScopedStmt W.known σ s)
    (hsame : s.withoutIds = (Statement.forLoop initializer condition increment x).parsed) :
    Simulates (fun _ => False) W e (LoxLang.execute (n + 1) s)
      (execute (k + 1) names (.forLoop initializer condition increment x)) fun _ _ _ => True := by
  rw [Statement.parsed] at hsame
  rw [execute]
  cases initializer with
  | none => exact follows_loop ih (Nat.succ_le_succ hle) h hsettled hs hsame
  | some initializer =>
    rw [Option.map_some, whileForm_some] at hsame
    obtain ⟨s₁, s₂, rfl, hs₁, hs₂⟩ := eq_pair_of_withoutIds hsame
    obtain ⟨hfirst, hsecond⟩ := scoped_of_pair hs
    exact simulates_block (simulates_inside h hsettled fun hwithin =>
      follows_entered ih hle hwithin hfirst hs₁ hsecond hs₂)

/-- One unit of fuel more for statements; the loops are those of `while` and, in their block, those of
`for`. -/
theorem follows_execute (ih : ∀ i < n + 1, Follows i) (hfuel : n + 1 ≤ k) {s : Stmt} {x : Statement}
    (h : Lexical.Fits W σ e names) (hsettled : σ.Settled) (hs : ScopedStmt W.known σ s)
    (hsame : s.withoutIds = x.parsed) :
    Simulates (fun _ => False) W e (LoxLang.execute (n + 1) s) (execute k names x)
      fun _ _ _ => True := by
  obtain ⟨k, rfl, hle⟩ := exists_less_fuel hfuel
  have ihn := ih n (Nat.lt_succ_self n)
  cases x with
  | expression x =>
    rw [execute]
    exact follows_advance ih (Nat.succ_le_succ hle) h hs hsame
  | print x =>
    obtain ⟨x, rfl, rfl⟩ := eq_print_of_withoutIds hsame
    cases hs with
    | print hx =>
      rw [LoxLang.execute, execute]
      refine (ihn.evaluate hle h hx).bind fun W₁ v v' _ hv => ?_
      rw [hv.text_eq (Lexical.lookalike_sameFunction W₁), text_map _ v' lookalike_toLexical]
      exact simulates_print _
  | block body =>
    obtain ⟨ss, rfl, hss⟩ := eq_block_of_withoutIds hsame
    cases hs with
    | block hbody =>
      rw [execute]
      exact simulates_block (simulates_inside h hsettled fun hwithin =>
        ihn.executeAll hle hwithin hbody hss)
  | ifThen condition thenBranch =>
    obtain ⟨c, s₁, rfl, rfl, hs₁⟩ := eq_ifThen_of_withoutIds hsame
    cases hs with
    | ifThen hcondition hthen _ =>
      rw [LoxLang.execute, execute]
      refine (ihn.evaluate hle h hcondition).bind fun W₁ v v' hkeeps hv => ?_
      rw [hv.isTruthy_eq, isTruthy_map]
      refine .ite ?_ (.pure trivial)
      exact ihn.execute hle (h.mono hkeeps.extends) hsettled (hthen.mono hkeeps.extends.known) hs₁
  | ifElse condition thenBranch elseBranch =>
    obtain ⟨c, s₁, s₂, rfl, rfl, hs₁, hs₂⟩ := eq_ifElse_of_withoutIds hsame
    cases hs with
    | ifElse hcondition hthen helse _ _ =>
      rw [LoxLang.execute, execute]
      refine (ihn.evaluate hle h hcondition).bind fun W₁ v v' hkeeps hv => ?_
      rw [hv.isTruthy_eq, isTruthy_map]
      have h₁ := h.mono hkeeps.extends
      refine .ite ?_ ?_
      · exact ihn.execute hle h₁ hsettled (hthen.mono hkeeps.extends.known) hs₁
      · exact ihn.execute hle h₁ hsettled (helse.mono hkeeps.extends.known) hs₂
  | whileLoop condition body =>
    rw [execute]
    have hround : (do execute k names body; advance (evaluate k) names none) =
        execute k names body := bind_pure_unit
    rw [← hround]
    have hform : s.withoutIds = Grammar.whileForm none (some condition) none body.parsed := hsame
    exact follows_loop ih (Nat.succ_le_succ hle) h hsettled hs hform
  | forLoop initializer condition increment body => exact follows_forLoop ih hle h hsettled hs hsame
  | ret keyword value =>
    obtain ⟨value, rfl, rfl⟩ := eq_ret_of_withoutIds hsame
    cases hs with
    | ret =>
      rw [LoxLang.execute, Option.map_none, execute]
      exact .throw (.returned .nil)
    | retValue hx =>
      rw [LoxLang.execute, Option.map_some, execute]
      exact (ihn.evaluate hle h hx).bind fun W₁ v v' _ hv => .throw (.returned hv)

/-- A declaration adds its name to what follows; any other statement adds none. -/
theorem follows_perform (ih : ∀ i < n + 1, Follows i) (hle : n ≤ k) {s : Stmt} {d : Declaration}
    (h : Within W σ e env) (hs : ScopedStmt W.known σ s) (hsame : s.withoutIds = d.parsed) :
    Simulates (· ∈ e.head?) W e (LoxLang.execute n s)
      (perform (evaluate k) (execute k) env d) fun W' _ env' => Within W' (σ.after s) e env' := by
  cases d with
  | declare name value =>
    exact follows_declareVariable (fun i hi => ih i (Nat.lt_succ_of_lt hi)) hle h hs hsame
  | function name params body =>
    obtain ⟨body', rfl, hbody'⟩ := eq_function_of_withoutIds hsame
    cases n with
    | zero => exact simulates_execute_zero
    | succ n =>
      cases hs with
      | function hfree hparams hbody =>
        rw [LoxLang.execute, perform]
        refine simulates_declare h hfree fun W₁ env₁ done hdeclaring => ?_
        have hknown : ∀ id d, W.known id d → (done W₁).known id d :=
          (hdeclaring.later.trans (hdeclaring.finishes W₁)).known
        have hclosure : Lexical.Simulates (fun _ => False) W₁ e
            (Run.makeClosure ⟨name, params, body'⟩)
            (Lexical.makeClosure (Lexical.withoutIds ⟨name, params, body'⟩) (.inside env₁.names))
            fun W₂ v v' => Same (done W₂) v v' :=
          Lexical.simulates_makeClosure fun identity =>
            .function (.mk identity hdeclaring.defined.fits (h.settled.mark _)
              ⟨hparams, hbody.mono hknown⟩)
        rw [Lexical.withoutIds, hbody'] at hclosure
        exact .ofMirrors (quiet_makeClosure _) (mirrors_makeClosure name params body _) hclosure
  | statement x =>
    have hafter : σ.after s = σ := by rw [Scopes.after, declaredName?_of_parsed hsame]
    rw [perform, hafter]
    have hsteps := (ih n (Nat.lt_succ_self n)).execute hle h.fits h.settled hs hsame
    exact (hsteps.map (k := fun _ => env) fun W' _ _ hkeeps _ => h.keeps hkeeps).weaken

/-- The statements of a list are performed in order, each among the names declared before it. -/
theorem follows_executeAll (ih : ∀ i < n + 1, Follows i) (hfuel : n + 1 ≤ k) {ss : List Stmt}
    {ds : List Declaration} (h : Within W σ e env) (hss : ScopedStmts W.known σ ss)
    (hsame : ss.map Stmt.withoutIds = parsedAll ds) :
    Simulates (· ∈ e.head?) W e (LoxLang.executeAll (n + 1) ss) (executeAll k env ds)
      fun _ _ _ => True := by
  obtain ⟨k, rfl, hle⟩ := exists_less_fuel hfuel
  cases ds with
  | nil =>
    obtain rfl := List.map_eq_nil_iff.mp hsame
    rw [executeAll_nil]
    exact .pure trivial
  | cons d ds =>
    obtain ⟨s, ss, rfl, hs, hsame⟩ := List.map_eq_cons_iff.mp hsame
    cases hss with
    | cons hfirst hrest =>
      rw [LoxLang.executeAll, executeAll]
      refine (follows_perform ih hle h hfirst hs).bind fun W₁ _ env₁ hkeeps h₁ => ?_
      exact (ih n (Nat.lt_succ_self n)).executeAll hle h₁ (hrest.mono hkeeps.extends.known) hsame

end

/-- For every amount of fuel the machine does what the program does as it is written. -/
theorem follows (n : Nat) : Follows n := by
  -- on the fuel of the machine: the blocks of a while form use up more of it than the loop does
  induction n using Nat.strong_induction_on with
  | _ n ih =>
    cases n with
    | zero => exact follows_zero
    | succ n =>
      have ihn := ih n (Nat.lt_succ_self n)
      exact
        { evaluate := fun hle h hx => follows_evaluate ihn hle h hx
          evaluateAll := fun hle h hxs => follows_evaluateAll ihn hle h hxs
          execute := fun hle h hsettled hs hsame => follows_execute ih hle h hsettled hs hsame
          executeAll := fun hle h hss hsame => follows_executeAll ih hle h hss hsame }

end LoxLang.Direct
