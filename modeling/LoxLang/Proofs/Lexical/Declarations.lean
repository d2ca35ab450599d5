import LoxLang.Proofs.Lexical.Simulates

/-!
Declarations and scopes. A declaration inside of a scope takes a location whose place is the entry of
the name in the innermost table; the machine writes this entry only once the value is there, which is
when the location gets its value. A new scope is a new table on one side and nothing on the other.
-/
namespace LoxLang.Lexical

open World
open Resolution (Readiness)

section

variable {scope : Bindings Readiness} {outer : Scopes} {x y : String} {readiness : Readiness}

theorem contains_insert (scope : Bindings Readiness) (x y : String) (readiness : Readiness) :
    (scope.insert x readiness).contains y = (decide (x = y) || scope.contains y) := by
  rw [Bindings.contains, Bindings.find?_insert]
  by_cases h : x = y
  · simp [h]
  · simp [h, Bindings.contains]

theorem distance?_cons (scope : Bindings Readiness) (outer : Scopes) (x : String) :
    Scopes.distance? (scope :: outer) x =
      if scope.contains x then some 0 else (Scopes.distance? outer x).map (· + 1) := by
  rw [Scopes.distance?, List.findIdx?_cons]
  rfl

theorem distance?_empty (outer : Scopes) (x : String) :
    Scopes.distance? (.empty :: outer) x = (Scopes.distance? outer x).map (· + 1) := by
  rw [distance?_cons]
  simp [Bindings.contains]

theorem distance?_insert (scope : Bindings Readiness) (outer : Scopes) (x y : String)
    (readiness : Readiness) :
    Scopes.distance? (scope.insert x readiness :: outer) y =
      if x = y then some 0 else Scopes.distance? (scope :: outer) y := by
  rw [distance?_cons, distance?_cons, contains_insert]
  by_cases h : x = y <;> simp [h]

end

section

variable {A : Address → Prop} {W W' : World} {scope : Bindings Readiness} {outer σ : Scopes}
  {e inner : Environment} {names : Names} {a : Address} {x : String} {l : Location} {b : Bool}
  {readiness : Readiness}

/-- With another location in sight the environment still fits, if its place is in the innermost
table. -/
theorem Fits.insert (h : Fits W (scope :: outer) (a :: inner) names) (le : Extends W W')
    (hp : W'.places[l]? = some ⟨a, x, b⟩) (hb : readiness = .defined → b = true) :
    Fits W' (scope.insert x readiness :: outer) (a :: inner) (names.insert x l) where
  length := h.length
  outermost := nofun
  global y hy := by
    rw [distance?_insert] at hy
    by_cases hxy : x = y
    · simp [hxy] at hy
    · rw [if_neg hxy] at hy
      rw [Bindings.find?_insert_of_ne hxy]
      exact h.global y hy
  inner y d hd := by
    rw [distance?_insert] at hd
    by_cases hxy : x = y
    · subst hxy
      rw [if_pos rfl] at hd
      cases hd
      refine ⟨l, a, b, Bindings.find?_insert_self .., rfl, hp, fun scope' hscope hx => ?_⟩
      cases hscope
      rw [Bindings.find?_insert_self] at hx
      exact hb (Option.some.inj hx)
    · rw [if_neg hxy] at hd
      obtain ⟨k, a', b', hk, ha', hp', hset⟩ := (h.mono le).inner y d hd
      refine ⟨k, a', b', by rwa [Bindings.find?_insert_of_ne hxy], ha', hp', fun scope' hscope hx => ?_⟩
      cases d with
      | zero =>
        cases hscope
        rw [Bindings.find?_insert_of_ne hxy] at hx
        exact hset scope rfl hx
      | succ d => exact hset scope' hscope hx

/-- A new scope has no names, so the environment around it is in sight one further out. -/
theorem Fits.open (h : Fits W σ e names) (W' : World) (le : Extends W W') (a : Address) :
    Fits W' (.empty :: σ) (a :: e) names where
  length := by rw [List.length_cons, List.length_cons, h.length]
  outermost := nofun
  global x hx := by
    rw [distance?_empty, Option.map_eq_none_iff] at hx
    exact h.global x hx
  inner x d hd := by
    rw [distance?_empty, Option.map_eq_some_iff] at hd
    obtain ⟨d, hd, rfl⟩ := hd
    obtain ⟨l, a', b, hl, ha', hp, hset⟩ := (h.mono le).inner x d hd
    exact ⟨l, a', b, hl, ha', hp, hset⟩

/-- A new location at the innermost table is that of the name that is declared. -/
theorem Innermost.push (h : Innermost W (scope :: outer) (a :: inner)) :
    Innermost (W.push a x) (scope.insert x readiness :: outer) (a :: inner) := by
  intro scope' outer' hσ
  cases hσ
  obtain ⟨_, _, he, hpos, hlt, hplaces⟩ := h scope outer rfl
  cases he
  refine ⟨a, inner, rfl, hpos, hlt, fun k p hp hpa => ?_⟩
  rw [contains_insert]
  rcases place_of_push hp with hp | ⟨-, rfl⟩
  · simp [hplaces k p hp hpa]
  · simp

/-- Giving a location its value leaves the places of the innermost table as they are. -/
theorem Innermost.fill (h : Innermost W (scope.insert x .declared :: outer) e) :
    Innermost (W.fill l) (scope.insert x readiness :: outer) e := by
  intro scope' outer' hσ
  cases hσ
  obtain ⟨a, inner, he, hpos, hlt, hplaces⟩ := h _ _ rfl
  refine ⟨a, inner, he, hpos, hlt, fun k p hp hpa => ?_⟩
  obtain ⟨_, hp, -⟩ := place_of_fill hp
  have hcontains := hplaces k _ hp hpa
  rw [contains_insert] at hcontains ⊢
  exact hcontains

theorem place_fill (h : W.places[l]? = some ⟨a, x, b⟩) :
    (W.fill l).places[l]? = some ⟨a, x, true⟩ := by
  simp [World.fill, h]

/-- The location that was taken last has a value in the end, and is the only one to get one. -/
theorem keeps_fill_push (h : Keeps (fun _ => False) (W.push a x) W') :
    Keeps (· = a) W (W'.fill W.places.length) where
  known := h.known
  distances := h.distances
  lossless := h.lossless
  tables := h.tables
  places := by
    obtain ⟨added, hadded, hnew⟩ := h.places
    refine ⟨⟨a, x, true⟩ :: added, ?_, fun p hp => ?_⟩
    · have hlt : W.places.length < (W.places ++ ([(⟨a, x, false⟩ : Place)] ++ added)).length := by
        simp
      rw [World.fill, hadded, World.push, List.append_assoc, List.modify_eq_take_cons_drop hlt]
      simp
    · rcases List.mem_cons.mp hp with rfl | hp
      · exact .inr rfl
      · exact (hnew p hp).imp id False.elim

/-- No location is at a table yet to be added. -/
theorem innermost_addTable {m : Machine} {r : State} (h : Related W m r) (σ : Scopes)
    (e : Environment) : Innermost W.addTable (.empty :: σ) (W.tables :: e) := by
  intro scope outer hσ
  refine ⟨W.tables, e, rfl, h.positive, Nat.lt_succ_self _, fun l p hp hpa => ?_⟩
  have hlt := (h.inside l p hp).2
  rw [hpa] at hlt
  exact absurd hlt (Nat.lt_irrefl _)

end

section

variable {α : Type} {A : Address → Prop} {W : World} {scope : Bindings Readiness}
  {outer σ : Scopes} {e inner : Environment} {names : Names} {a : Address} {name : Token}
  {p : Run LoxLang.Value}

theorem declare_inside_ok {q : Env → Eval Value} {r r' : State} {v : Value}
    (h : q (.inside (names.insert name.lexeme r.locations.length)) r.take = .ok v r') :
    declare (.inside names) name q r =
      .ok (.inside (names.insert name.lexeme r.locations.length))
        (r'.setLocation r.locations.length v) := by
  change EStateM.bind (q _) _ r.take = _
  rw [EStateM.bind, h]
  rfl

theorem declare_inside_error {q : Env → Eval Value} {r r' : State} {signal : Signal}
    (h : q (.inside (names.insert name.lexeme r.locations.length)) r.take = .error signal r') :
    declare (.inside names) name q r = .error signal r' := by
  change EStateM.bind (q _) _ r.take = _
  rw [EStateM.bind, h]

/-- Outside of all scopes a declaration gives a global variable its value. -/
theorem simulates_declare_outermost {q : Env → Eval Value}
    (h : Simulates A W .globals p (q .outermost) Same) :
    Simulates A W .globals (p >>= Run.define name.lexeme) (declare .outermost name q)
      fun _ _ env => env = .outermost := by
  refine .bind h fun W' v v' hkeeps hv m r hrelated hcurrent => ?_
  have hset := hrelated.setGlobal name.lexeme hv
  have hdefine : m.store.define m.current name.lexeme v = m.store.writeTable 0 name.lexeme v := by
    rw [hcurrent]
    rfl
  rw [← hdefine] at hset
  exact .ok (.refl W') hset hcurrent rfl

/-- Inside of a scope a declaration takes a location, which has its value once the step is done. -/
theorem simulates_declare_inside {q : Env → Eval Value}
    (hfits : Fits W (scope :: outer) (a :: inner) names)
    (hinnermost : Innermost W (scope :: outer) (a :: inner))
    (hfree : scope.contains name.lexeme = false)
    (h : Simulates (fun _ => False) (W.push a name.lexeme) (a :: inner) p
      (q (.inside (names.insert name.lexeme W.places.length)))
      fun W' v v' => Same (W'.fill W.places.length) v v') :
    Simulates (· = a) W (a :: inner) (p >>= Run.define name.lexeme)
      (declare (.inside names) name q) fun W' _ env => ∃ names', env = .inside names' ∧
        Fits W' (scope.insert name.lexeme .defined :: outer) (a :: inner) names' ∧
        Innermost W' (scope.insert name.lexeme .defined :: outer) (a :: inner) := by
  intro m r hrelated hcurrent
  obtain ⟨_, _, he, hpos, hlt, hplaces⟩ := hinnermost scope outer rfl
  cases he
  have hnew : ∀ (l : Location) (p : Place), W.places[l]? = some p → p.address = a →
      p.name ≠ name.lexeme := by
    intro l p hp hpa hname
    have hcontains := hplaces l p hp hpa
    rw [hname, hfree] at hcontains
    cases hcontains
  -- the reference takes the location first; here there is no entry before the value is there
  have htaken := hrelated.push hpos hlt hnew
  have hkeeps : Keeps (· = a) W (W.push a name.lexeme) := keeps_push rfl
  have h := h m r.take htaken hcurrent
  simp only [Bind.bind, EStateM.bind]
  have hcount := hrelated.count
  generalize p m = x at h ⊢
  generalize hq : q _ r.take = y at h
  rw [← hcount] at hq
  cases h with
  | error hkeeps' hrelated hcurrent h =>
    rw [declare_inside_error hq]
    exact .error (hkeeps.trans (hkeeps'.mono fun _ => False.elim)) hrelated hcurrent h
  | broken hkeeps' hrelated hcurrent hlossy =>
    exact .broken (hkeeps.trans (hkeeps'.mono fun _ => False.elim)) hrelated hcurrent hlossy
  | @ok W₂ m₂ r₂ v v' hkeeps' hrelated hcurrent hv =>
    have hp : W₂.places[W.places.length]? = some ⟨a, name.lexeme, false⟩ :=
      hkeeps'.place (place_push W a name.lexeme)
    have hwritten := hrelated.fill hp hv
    have hdefine : m₂.store.define m₂.current name.lexeme v =
        m₂.store.writeTable a name.lexeme v := by
      rw [hcurrent]
      rfl
    rw [← hdefine] at hwritten
    have hle := (hkeeps.extends.trans hkeeps'.extends).trans (extends_fill W₂ W.places.length)
    rw [declare_inside_ok hq, hcount]
    refine .ok (keeps_fill_push hkeeps') hwritten hcurrent ⟨_, rfl, ?_, ?_⟩
    · exact hfits.insert hle (place_fill hp) fun _ => rfl
    · have hpushed : Innermost (W.push a name.lexeme)
          (scope.insert name.lexeme .declared :: outer) (a :: inner) := hinnermost.push
      exact (hpushed.keeps hkeeps').fill

end

section

variable {α β : Type} {A : Address → Prop} {W : World} {e outer : Environment}

/-- A step in a new scope may put its locations at the table of that scope. -/
theorem simulates_newScope {p : Run α} {q : Eval β} {Q : World → α → β → Prop}
    (h : ∀ m r, Related W m r →
      Simulates (· = W.tables) W.addTable (W.tables :: outer) p q Q) :
    Simulates A W e (Run.inNewScope outer p) q Q := by
  intro m r hrelated hcurrent
  have hinside : m.store.inside outer = W.tables :: outer := by rw [Store.inside, hrelated.tables]
  have hends := h m r hrelated { m with store := m.store.addTable, current := W.tables :: outer } r
    (hrelated.addTable.setCurrent _) rfl
  have hkeeps : Keeps A W W.addTable := keeps_addTable W
  have hA {W' : World} (h : Keeps (· = W.tables) W.addTable W') : Keeps A W W' :=
    ((keeps_addTable W).trans h).mono fun a ha => .inl (Nat.le_of_eq ha.symm)
  simp only [Run.inNewScope, Run.inEnvironment, hinside]
  generalize p _ = x at hends ⊢
  generalize q r = y at hends ⊢
  cases hends with
  | ok hkeeps hrelated _ h => exact .ok (hA hkeeps) (hrelated.setCurrent _) hcurrent h
  | error hkeeps hrelated _ h => exact .error (hA hkeeps) (hrelated.setCurrent _) hcurrent h
  | broken hkeeps hrelated _ hlossy =>
    exact .broken (hA hkeeps) (hrelated.setCurrent _) hcurrent hlossy

/-- A `return` gives the value of the call on both sides. -/
theorem simulates_catchReturn {p : Run Unit} {q : Eval Env} {Q : World → Unit → Env → Prop}
    (h : Simulates A W e p q Q) :
    Simulates A W e (Run.catchReturn p) (catchReturn q) Same := by
  intro m r hrelated hcurrent
  have hends := h m r hrelated hcurrent
  simp only [Run.catchReturn, catchReturn]
  generalize p m = x at hends ⊢
  generalize q r = y at hends ⊢
  cases hends with
  | ok hkeeps hrelated hcurrent _ => exact .ok hkeeps hrelated hcurrent .nil
  | error hkeeps hrelated hcurrent h =>
    cases h with
    | returned hv => exact .ok hkeeps hrelated hcurrent hv
    | runtime e => exact .error hkeeps hrelated hcurrent (.runtime e)
    | exhausted => exact .error hkeeps hrelated hcurrent .exhausted
  | broken hkeeps hrelated hcurrent hlossy => exact .broken hkeeps hrelated hcurrent hlossy

end

end LoxLang.Lexical
