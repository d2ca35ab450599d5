import LoxLang.Proofs.Direct.Mirrors
import LoxLang.Proofs.Lexical.Simulation
import LoxLang.Proofs.Running.FullOutput

/-!
Steps of the machine that programs as they are written follow. From states that are the same in some
world, with the same output, both steps end the same way, unless the machine runs out of fuel. Steps
that print nothing are taken over from the reference; for the others the rules below say how pairs of
steps are put together.
-/
namespace LoxLang.Direct

open Lexical (Location Names Env World Scopes Related Same SameAll Innermost Within Declaring)
open Lexical.World (Keeps Extends)

structure Matched (W : World) (m : Machine) (s : State) : Prop where
  related : Related W m s.toLexical
  lossy : W.lossless = false
  output : m.output = s.output

inductive SameSignal (W : World) : LoxLang.Signal → Signal → Prop
  | returned {v : LoxLang.Value} {v' : Value} (h : Same W v v'.toLexical) :
      SameSignal W (.returned v) (.returned v')
  | runtime (e : RuntimeError) : SameSignal W (.runtime e) (.runtime e)
  | output (f : Stream.Failure) : SameSignal W (.output f) (.output f)

section

variable {α β γ δ : Type}

/-- Both steps have a result, or both break off with the same signal; or the machine runs out of fuel,
of which nothing is said. -/
inductive Ends (A : Address → Prop) (W : World) (e : Environment) (Q : World → α → β → Prop) :
    EStateM.Result LoxLang.Signal Machine α → EStateM.Result Signal State β → Prop
  | ok {W' : World} {m : Machine} {s : State} {a : α} {b : β} (hkeeps : Keeps A W W')
      (hmatched : Matched W' m s) (hcurrent : m.current = e) (h : Q W' a b) :
      Ends A W e Q (.ok a m) (.ok b s)
  | error {W' : World} {m : Machine} {s : State} {signal : LoxLang.Signal} {signal' : Signal}
      (hkeeps : Keeps A W W') (hmatched : Matched W' m s) (hcurrent : m.current = e)
      (h : SameSignal W' signal signal') : Ends A W e Q (.error signal m) (.error signal' s)
  | exhausted {m : Machine} {y : EStateM.Result Signal State β} :
      Ends A W e Q (.error .exhausted m) y

def Simulates (A : Address → Prop) (W : World) (e : Environment) (p : Run α) (q : Eval β)
    (Q : World → α → β → Prop) : Prop :=
  ∀ m s, Matched W m s → m.current = e → Ends A W e Q (p m) (q s)

theorem Ends.keeps {A : Address → Prop} {W W' : World} {e : Environment}
    {Q : World → α → β → Prop} {x : EStateM.Result LoxLang.Signal Machine α}
    {y : EStateM.Result Signal State β} (h : Ends A W' e Q x y) (hkeeps : Keeps A W W') :
    Ends A W e Q x y := by
  cases h with
  | ok hkeeps' hmatched hcurrent h => exact .ok (hkeeps.trans hkeeps') hmatched hcurrent h
  | error hkeeps' hmatched hcurrent h => exact .error (hkeeps.trans hkeeps') hmatched hcurrent h
  | exhausted => exact .exhausted

namespace Simulates

variable {A A' : Address → Prop} {W : World} {e : Environment} {p : Run α} {q : Eval β}
  {f : α → Run γ} {g : β → Eval δ} {P Q : World → α → β → Prop} {R : World → γ → δ → Prop}

theorem pure {a : α} {b : β} (h : Q W a b) : Simulates A W e (Pure.pure a) (Pure.pure b) Q :=
  fun _ _ hmatched hcurrent => .ok (.refl W) hmatched hcurrent h

theorem throw {signal : LoxLang.Signal} {signal' : Signal} (h : SameSignal W signal signal') :
    Simulates A W e (MonadExcept.throw signal : Run α) (MonadExcept.throw signal' : Eval β) Q :=
  fun _ _ hmatched hcurrent => .error (.refl W) hmatched hcurrent h

theorem exhausted : Simulates A W e (MonadExcept.throw .exhausted : Run α) q Q :=
  fun _ _ _ _ => .exhausted

/-- What is known after the first step may be used for the second one. -/
theorem bind (hp : Simulates A W e p q P)
    (hf : ∀ W' a b, Keeps A W W' → P W' a b → Simulates A W' e (f a) (g b) R) :
    Simulates A W e (p >>= f) (q >>= g) R := by
  intro m s hmatched hcurrent
  have h := hp m s hmatched hcurrent
  simp only [Bind.bind, EStateM.bind]
  generalize p m = x at h ⊢
  generalize q s = y at h ⊢
  cases h with
  | ok hkeeps hmatched hcurrent h => exact (hf _ _ _ hkeeps h _ _ hmatched hcurrent).keeps hkeeps
  | error hkeeps hmatched hcurrent h => exact .error hkeeps hmatched hcurrent h
  | exhausted => exact .exhausted

/-- A simulation may be stated with more places for new locations, and with less said of the results. -/
theorem mono (h : Simulates A W e p q P) (hA : ∀ a, A a → W.tables ≤ a ∨ A' a)
    (hQ : ∀ W' a b, Keeps A W W' → P W' a b → Q W' a b) : Simulates A' W e p q Q := by
  intro m s hmatched hcurrent
  have h := h m s hmatched hcurrent
  generalize p m = x at h ⊢
  generalize q s = y at h ⊢
  cases h with
  | ok hkeeps hmatched hcurrent h =>
    exact .ok (hkeeps.mono hA) hmatched hcurrent (hQ _ _ _ hkeeps h)
  | error hkeeps hmatched hcurrent h => exact .error (hkeeps.mono hA) hmatched hcurrent h
  | exhausted => exact .exhausted

/-- A step that takes no location at an old table does so in particular. -/
theorem weaken (h : Simulates (fun _ => False) W e p q Q) : Simulates A W e p q Q :=
  h.mono (fun _ => False.elim) fun _ _ _ _ h => h

/-- The result is changed on the side of the program as it is written. -/
theorem map {k : β → δ} {R : World → α → δ → Prop} (h : Simulates A W e p q P)
    (hR : ∀ W' a b, Keeps A W W' → P W' a b → R W' a (k b)) :
    Simulates A W e p (q >>= fun b => Pure.pure (k b)) R := by
  intro m s hmatched hcurrent
  have h := h m s hmatched hcurrent
  simp only [Bind.bind, EStateM.bind]
  generalize p m = x at h ⊢
  generalize q s = y at h ⊢
  cases h with
  | ok hkeeps hmatched hcurrent h => exact .ok hkeeps hmatched hcurrent (hR _ _ _ hkeeps h)
  | error hkeeps hmatched hcurrent h => exact .error hkeeps hmatched hcurrent h
  | exhausted => exact .exhausted

/-- The same choice on both sides. -/
theorem ite {c : Bool} {p' : Run α} {q' : Eval β} (hp : Simulates A W e p q Q)
    (hp' : Simulates A W e p' q' Q) :
    Simulates A W e (if c then p else p') (if c then q else q') Q := by
  cases c
  · exact hp'
  · exact hp

/-- A step that prints nothing does what another one does that mirrors the step of the reference. -/
theorem ofMirrors {k : β → δ} {q' : Lexical.Eval δ} {R : World → α → δ → Prop} (hp : Quiet p)
    (hq : Mirrors k q q') (h : Lexical.Simulates A W e p q' R) :
    Simulates A W e p q fun W' a b => R W' a (k b) := by
  intro m s hmatched hcurrent
  have h := h m s.toLexical hmatched.related hcurrent
  have hmirrored := hq s
  have hsame := hmatched.output
  have hquiet := hp.output m
  have hunfailing := hp.unfailing m
  generalize p m = x at h hquiet hunfailing ⊢
  generalize q s = y at hmirrored ⊢
  generalize q' s.toLexical = z at h hmirrored
  have hlossy {W' : World} (hkeeps : Keeps A W W') : W'.lossless = false :=
    hkeeps.lossless.trans hmatched.lossy
  cases h with
  | ok hkeeps hrelated hcurrent h =>
    cases hmirrored with
    | ok hwritten =>
      exact .ok hkeeps ⟨hrelated, hlossy hkeeps, hquiet.trans (hsame.trans hwritten.symm)⟩
        hcurrent h
  | error hkeeps hrelated hcurrent h =>
    cases hmirrored with
    | stopped hwritten =>
      cases h
      exact .error hkeeps ⟨hrelated, hlossy hkeeps, hquiet.trans (hsame.trans hwritten.symm)⟩
        hcurrent (.runtime _)
  | broken => exact absurd rfl (hunfailing _ _)

end Simulates

end

section

variable {W : World} {m : Machine} {s : State} {a : Address} {x : String} {v : LoxLang.Value}
  {v' : Value}

theorem Matched.setGlobal (h : Matched W m s) (x : String) (hv : Same W v v'.toLexical) :
    Matched W { m with store := m.store.writeTable 0 x v } (s.setGlobal x v') where
  related := by
    rw [toLexical_setGlobal]
    exact h.related.setGlobal x hv
  lossy := h.lossy
  output := h.output

theorem Matched.fill (h : Matched W m s) {l : Location} {b : Bool}
    (hp : W.places[l]? = some ⟨a, x, b⟩) (hv : Same (W.fill l) v v'.toLexical) :
    Matched (W.fill l) { m with store := m.store.writeTable a x v } (s.setLocation l v') where
  related := by
    rw [toLexical_setLocation]
    exact h.related.fill hp hv
  lossy := h.lossy
  output := h.output

theorem Matched.push (h : Matched W m s) (hpos : 0 < a) (hlt : a < W.tables)
    (hfree : ∀ (l : Location) (p : Lexical.Place), W.places[l]? = some p → p.address = a →
      p.name ≠ x) :
    Matched (W.push a x) m s.take where
  related := by
    rw [toLexical_take]
    exact h.related.push hpos hlt hfree
  lossy := h.lossy
  output := h.output

theorem Matched.setCurrent (h : Matched W m s) (e : Environment) :
    Matched W { m with current := e } s :=
  ⟨h.related.setCurrent e, h.lossy, h.output⟩

theorem Matched.addTable (h : Matched W m s) :
    Matched W.addTable { m with store := m.store.addTable } s :=
  ⟨h.related.addTable, h.lossy, h.output⟩

theorem Matched.count (h : Matched W m s) : s.locations.length = W.places.length :=
  (length_locations_toLexical s).symm.trans h.related.count

/-- Both sides print the same, and break off together if there is no room for it. -/
theorem simulates_print {A : Address → Prop} {e : Environment} (text : String) :
    Simulates A W e (Run.print text) (print text) fun _ _ _ => True := by
  intro m s hmatched hcurrent
  have hwritten : Matched W { m with output := m.output.write (text ++ "\n") }
      { s with output := s.output.write (text ++ "\n") } :=
    { related := { hmatched.related with
        output := fun hlossless => by rw [hmatched.lossy] at hlossless; cases hlossless }
      lossy := hmatched.lossy
      output := congrArg (·.write (text ++ "\n")) hmatched.output }
  simp only [Run.print, print, hmatched.output] at hwritten ⊢
  split
  · exact .ok (.refl W) hwritten hcurrent trivial
  · exact .error (.refl W) hwritten hcurrent (.output .full)

end

section

variable {W : World} {e : Environment} {names : Names} {name : Token} {p : Run LoxLang.Value}
  {q : Names → Eval Value}

theorem declare_inside_ok {s s' : State} {v : Value}
    (h : q (names.insert name.lexeme s.locations.length) s.take = .ok v s') :
    declare (.inside names) name q s =
      .ok (.inside (names.insert name.lexeme s.locations.length))
        (s'.setLocation s.locations.length v) := by
  change EStateM.bind (q _) _ s.take = _
  rw [EStateM.bind, h]
  rfl

theorem declare_inside_error {s s' : State} {signal : Signal}
    (h : q (names.insert name.lexeme s.locations.length) s.take = .error signal s') :
    declare (.inside names) name q s = .error signal s' := by
  change EStateM.bind (q _) _ s.take = _
  rw [EStateM.bind, h]

/-- Outside of all scopes a declaration gives a global variable its value. -/
theorem simulates_declare_outermost
    (h : Simulates A W .globals p (q .empty) fun W' v v' => Same W' v v'.toLexical) :
    Simulates A W .globals (p >>= Run.define name.lexeme) (declare .outermost name q)
      fun _ _ env => env = .outermost := by
  refine .bind h fun W' v v' hkeeps hv m s hmatched hcurrent => ?_
  have hset := hmatched.setGlobal name.lexeme hv
  have hdefine : m.store.define m.current name.lexeme v = m.store.writeTable 0 name.lexeme v := by
    rw [hcurrent]
    rfl
  rw [← hdefine] at hset
  exact .ok (.refl W') hset hcurrent rfl

/-- Inside of a scope a declaration takes a location, which has its value once the step is done. -/
theorem simulates_declare_inside {scope : Bindings Resolution.Readiness} {outer : Scopes}
    {a : Address} {inner : Environment} (hfits : Lexical.Fits W (scope :: outer) (a :: inner) names)
    (hinnermost : Innermost W (scope :: outer) (a :: inner))
    (hfree : scope.contains name.lexeme = false)
    (h : Simulates (fun _ => False) (W.push a name.lexeme) (a :: inner) p
      (q (names.insert name.lexeme W.places.length))
      fun W' v v' => Same (W'.fill W.places.length) v v'.toLexical) :
    Simulates (· = a) W (a :: inner) (p >>= Run.define name.lexeme)
      (declare (.inside names) name q) fun W' _ env => ∃ names', env = .inside names' ∧
        Lexical.Fits W' (scope.insert name.lexeme .defined :: outer) (a :: inner) names' ∧
        Innermost W' (scope.insert name.lexeme .defined :: outer) (a :: inner) := by
  intro m s hmatched hcurrent
  obtain ⟨_, _, he, hpos, hlt, hplaces⟩ := hinnermost scope outer rfl
  cases he
  -- a name may be declared once in a scope, so no location stands at its entry
  have hnew : ∀ (l : Location) (p : Lexical.Place), W.places[l]? = some p → p.address = a →
      p.name ≠ name.lexeme := by
    intro l p hp hpa hname
    have hcontains := hplaces l p hp hpa
    rw [hname, hfree] at hcontains
    cases hcontains
  have hkeeps : Keeps (· = a) W (W.push a name.lexeme) := Lexical.World.keeps_push rfl
  have h := h m s.take (hmatched.push hpos hlt hnew) hcurrent
  have hcount := hmatched.count
  simp only [Bind.bind, EStateM.bind]
  generalize p m = x at h ⊢
  generalize hq : q _ s.take = y at h
  rw [← hcount] at hq
  cases h with
  | error hkeeps' hmatched hcurrent h =>
    rw [declare_inside_error hq]
    exact .error (hkeeps.trans (hkeeps'.mono fun _ => False.elim)) hmatched hcurrent h
  | exhausted => exact .exhausted
  | @ok W₂ m₂ s₂ v v' hkeeps' hmatched hcurrent hv =>
    have hp : W₂.places[W.places.length]? = some ⟨a, name.lexeme, false⟩ :=
      hkeeps'.place (Lexical.place_push W a name.lexeme)
    have hwritten := hmatched.fill hp hv
    have hdefine : m₂.store.define m₂.current name.lexeme v =
        m₂.store.writeTable a name.lexeme v := by
      rw [hcurrent]
      rfl
    rw [← hdefine] at hwritten
    have hle := (hkeeps.extends.trans hkeeps'.extends).trans
      (Lexical.World.extends_fill W₂ W.places.length)
    rw [declare_inside_ok hq, hcount]
    refine .ok (Lexical.keeps_fill_push hkeeps') hwritten hcurrent ⟨_, rfl, ?_, ?_⟩
    · exact hfits.insert hle (Lexical.place_fill hp) fun _ => rfl
    · have hpushed : Innermost (W.push a name.lexeme)
          (scope.insert name.lexeme .declared :: outer) (a :: inner) := hinnermost.push
      exact (hpushed.keeps hkeeps').fill

/-- A declaration is the same on both sides, whatever gives the name its value. -/
theorem simulates_declare {σ : Scopes} {env : Env} (h : Within W σ e env)
    (hfree : σ.Free name.lexeme)
    (hvalue : ∀ W₁ env₁ done, Declaring W W₁ σ name.lexeme e env₁ done →
      Simulates (fun _ => False) W₁ e p (q env₁.names) fun W₂ v v' =>
        Same (done W₂) v v'.toLexical) :
    Simulates (· ∈ e.head?) W e (p >>= Run.define name.lexeme) (declare env name q)
      fun W' _ env' => Within W' (σ.mark .defined name.lexeme) e env' := by
  cases σ with
  | nil =>
    have houtermost := h.outermost.mp rfl
    have he := h.fits.outermost rfl
    have hdeclaring := Lexical.declaring_outermost h.toSees name.lexeme
    subst houtermost he
    have hglobal := (hvalue W .outermost id hdeclaring).weaken
      (A := (· ∈ Environment.globals.head?))
    refine (simulates_declare_outermost hglobal).mono (fun a ha => .inr ha) ?_
    intro W' _ env' hkeeps henv
    subst henv
    exact ⟨h.toSees.mono hkeeps.extends, nofun, h.settled⟩
  | cons scope outer =>
    obtain ⟨a, inner, rfl, -⟩ := h.innermost scope outer rfl
    cases env with
    | outermost => exact absurd (h.outermost.mpr rfl) nofun
    | inside names =>
      have hlocal := simulates_declare_inside h.fits h.innermost (hfree scope rfl)
        (hvalue _ _ _ (Lexical.declaring_inside h.fits name.lexeme))
      refine hlocal.mono (fun b hb => .inr (by rw [hb]; rfl)) ?_
      rintro W' _ _ - ⟨names', rfl, hfits, hinnermost⟩
      exact ⟨⟨hfits, by simp [Scopes.mark]⟩, hinnermost, h.settled.insert name.lexeme⟩

/-- Binding arguments declares one parameter after the other in a scope without them. -/
theorem simulates_bindArguments {scope : Bindings Resolution.Readiness} {outer : Scopes} {env : Env}
    {params : List Token} {vs : List LoxLang.Value} {vs' : List Value}
    (hvs : SameAll W vs (vs'.map Value.toLexical)) (hlength : params.length = vs.length)
    (hparams : Lexical.FreeParams scope params) (h : Within W (scope :: outer) e env) :
    Simulates (· ∈ e.head?) W e (Run.bindArguments params vs) (bindArguments env params vs')
      fun W' _ env' => Within W' (Lexical.withParams scope params :: outer) e env' := by
  induction params generalizing W env scope vs vs' with
  | nil =>
    cases vs' with
    | nil =>
      cases hvs
      exact .pure h
    | cons =>
      cases hvs
      cases hlength
  | cons p params ih =>
    cases vs' with
    | nil =>
      cases hvs
      cases hlength
    | cons v' vs' =>
      cases hvs with
      | @cons v _ vs _ hv hvs =>
        have hfree : Scopes.Free (scope :: outer) p.lexeme := by
          intro scope' hscope
          cases hscope
          exact hparams.1
        have hbound : Simulates (· ∈ e.head?) W e (Run.define p.lexeme v)
            (declare env p fun _ => Pure.pure v') _ :=
          simulates_declare (p := Pure.pure v) h hfree fun W₁ env₁ done hdeclaring =>
            .pure (hv.mono (hdeclaring.later.trans (hdeclaring.finishes W₁)))
        refine .bind hbound fun W' _ env' hkeeps hwithin => ?_
        exact ih (SameAll.mono hvs hkeeps.extends) (Nat.succ.inj hlength) hparams.2 hwithin

end

section

variable {α β : Type} {A : Address → Prop} {W : World} {e outer : Environment}

/-- A step in a new scope may put its locations at the table of that scope. -/
theorem simulates_newScope {p : Run α} {q : Eval β} {Q : World → α → β → Prop}
    (h : ∀ m r, Related W m r →
      Simulates (· = W.tables) W.addTable (W.tables :: outer) p q Q) :
    Simulates A W e (Run.inNewScope outer p) q Q := by
  intro m s hmatched hcurrent
  have hinside : m.store.inside outer = W.tables :: outer := by
    rw [Store.inside, hmatched.related.tables]
  have hends := h m _ hmatched.related
    { m with store := m.store.addTable, current := W.tables :: outer } s
    (hmatched.addTable.setCurrent _) rfl
  have hA {W' : World} (h : Keeps (· = W.tables) W.addTable W') : Keeps A W W' :=
    ((Lexical.World.keeps_addTable W).trans h).mono fun a ha => .inl (Nat.le_of_eq ha.symm)
  simp only [Run.inNewScope, Run.inEnvironment, hinside]
  generalize p _ = x at hends ⊢
  generalize q s = y at hends ⊢
  cases hends with
  | ok hkeeps hmatched _ h => exact .ok (hA hkeeps) (hmatched.setCurrent _) hcurrent h
  | error hkeeps hmatched _ h => exact .error (hA hkeeps) (hmatched.setCurrent _) hcurrent h
  | exhausted => exact .exhausted

/-- A `return` gives the value of the call on both sides. -/
theorem simulates_catchReturn {p : Run Unit} {q : Eval Unit} {Q : World → Unit → Unit → Prop}
    (h : Simulates A W e p q Q) :
    Simulates A W e (Run.catchReturn p) (catchReturn q) fun W' v v' => Same W' v v'.toLexical := by
  intro m s hmatched hcurrent
  have hends := h m s hmatched hcurrent
  simp only [Run.catchReturn, catchReturn]
  generalize p m = x at hends ⊢
  generalize q s = y at hends ⊢
  cases hends with
  | ok hkeeps hmatched hcurrent _ => exact .ok hkeeps hmatched hcurrent .nil
  | error hkeeps hmatched hcurrent h =>
    cases h with
    | returned hv => exact .ok hkeeps hmatched hcurrent hv
    | runtime e => exact .error hkeeps hmatched hcurrent (.runtime e)
    | output f => exact .error hkeeps hmatched hcurrent (.output f)
  | exhausted => exact .exhausted

end

end LoxLang.Direct
