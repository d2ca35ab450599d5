import LoxLang.Proofs.Lexical.States

/-!
Steps of the machine that the reference follows. From states that are the same in some world both steps
end the same way, in states that are the same in a later world; the machine is back in the environment
it started in. The rules below say how such pairs of steps are put together.
-/
namespace LoxLang.Lexical

open World

section

variable {α β γ δ : Type}

/-- Both steps have a result, or both break off with the same signal; or the machine breaks off alone,
because its output is full. -/
inductive Ends (A : Address → Prop) (W : World) (e : Environment) (Q : World → α → β → Prop) :
    EStateM.Result LoxLang.Signal Machine α → EStateM.Result Signal State β → Prop
  | ok {W' : World} {m : Machine} {r : State} {a : α} {b : β} (hkeeps : Keeps A W W')
      (hrelated : Related W' m r) (hcurrent : m.current = e) (h : Q W' a b) :
      Ends A W e Q (.ok a m) (.ok b r)
  | error {W' : World} {m : Machine} {r : State} {s : LoxLang.Signal} {s' : Signal}
      (hkeeps : Keeps A W W') (hrelated : Related W' m r) (hcurrent : m.current = e)
      (h : SameSignal W' s s') : Ends A W e Q (.error s m) (.error s' r)
  | broken {W' : World} {m : Machine} {r : State} {f : Stream.Failure}
      {y : EStateM.Result Signal State β} (hkeeps : Keeps A W W') (hrelated : Related W' m r)
      (hcurrent : m.current = e) (hlossy : W.lossless = false) :
      Ends A W e Q (.error (.output f) m) y

def Simulates (A : Address → Prop) (W : World) (e : Environment) (p : Run α) (q : Eval β)
    (Q : World → α → β → Prop) : Prop :=
  ∀ m r, Related W m r → m.current = e → Ends A W e Q (p m) (q r)

theorem Ends.keeps {A : Address → Prop} {W W' : World} {e : Environment}
    {Q : World → α → β → Prop} {x : EStateM.Result LoxLang.Signal Machine α}
    {y : EStateM.Result Signal State β} (h : Ends A W' e Q x y) (hkeeps : Keeps A W W') :
    Ends A W e Q x y := by
  cases h with
  | ok hkeeps' hrelated hcurrent h => exact .ok (hkeeps.trans hkeeps') hrelated hcurrent h
  | error hkeeps' hrelated hcurrent h => exact .error (hkeeps.trans hkeeps') hrelated hcurrent h
  | broken hkeeps' hrelated hcurrent hlossy =>
    exact .broken (hkeeps.trans hkeeps') hrelated hcurrent (hkeeps.lossless ▸ hlossy)

namespace Simulates

variable {A A' : Address → Prop} {W : World} {e : Environment} {p : Run α} {q : Eval β}
  {f : α → Run γ} {g : β → Eval δ} {P Q : World → α → β → Prop} {R : World → γ → δ → Prop}

theorem pure {a : α} {b : β} (h : Q W a b) : Simulates A W e (Pure.pure a) (Pure.pure b) Q :=
  fun _ _ hrelated hcurrent => .ok (.refl W) hrelated hcurrent h

theorem throw {s : LoxLang.Signal} {s' : Signal} (h : SameSignal W s s') :
    Simulates A W e (MonadExcept.throw s : Run α) (MonadExcept.throw s' : Eval β) Q :=
  fun _ _ hrelated hcurrent => .error (.refl W) hrelated hcurrent h

/-- What is known after the first step may be used for the second one. -/
theorem bind (hp : Simulates A W e p q P)
    (hf : ∀ W' a b, Keeps A W W' → P W' a b → Simulates A W' e (f a) (g b) R) :
    Simulates A W e (p >>= f) (q >>= g) R := by
  intro m r hrelated hcurrent
  have h := hp m r hrelated hcurrent
  simp only [Bind.bind, EStateM.bind]
  generalize p m = x at h ⊢
  generalize q r = y at h ⊢
  cases h with
  | ok hkeeps hrelated hcurrent h => exact (hf _ _ _ hkeeps h _ _ hrelated hcurrent).keeps hkeeps
  | error hkeeps hrelated hcurrent h => exact .error hkeeps hrelated hcurrent h
  | broken hkeeps hrelated hcurrent hlossy => exact .broken hkeeps hrelated hcurrent hlossy

/-- A simulation may be stated with more places for new locations, and with less said of the results. -/
theorem mono (h : Simulates A W e p q P) (hA : ∀ a, A a → W.tables ≤ a ∨ A' a)
    (hQ : ∀ W' a b, Keeps A W W' → P W' a b → Q W' a b) : Simulates A' W e p q Q := by
  intro m r hrelated hcurrent
  have h := h m r hrelated hcurrent
  generalize p m = x at h ⊢
  generalize q r = y at h ⊢
  cases h with
  | ok hkeeps hrelated hcurrent h =>
    exact .ok (hkeeps.mono hA) hrelated hcurrent (hQ _ _ _ hkeeps h)
  | error hkeeps hrelated hcurrent h => exact .error (hkeeps.mono hA) hrelated hcurrent h
  | broken hkeeps hrelated hcurrent hlossy =>
    exact .broken (hkeeps.mono hA) hrelated hcurrent hlossy

/-- A step that takes no location at an old table does so in particular. -/
theorem weaken (h : Simulates (fun _ => False) W e p q Q) : Simulates A W e p q Q :=
  h.mono (fun _ => False.elim) fun _ _ _ _ h => h

/-- A step that takes no location at an old table, before one that may. -/
theorem bindEvaluated (hp : Simulates (fun _ => False) W e p q P)
    (hf : ∀ W' a b, Keeps (fun _ => False) W W' → P W' a b → Simulates A W' e (f a) (g b) R) :
    Simulates A W e (p >>= f) (q >>= g) R := by
  have hkept : Simulates A W e p q fun W' a b => Keeps (fun _ => False) W W' ∧ P W' a b :=
    hp.mono (fun _ => False.elim) fun W' a b hkeeps h => ⟨hkeeps, h⟩
  exact hkept.bind fun W' a b _ h => hf W' a b h.1 h.2

/-- The reference gives a result of its own in place of that of its step. -/
theorem discard {c : δ} {R : World → α → δ → Prop} (h : Simulates A W e p q P)
    (hR : ∀ W' a b, Keeps A W W' → P W' a b → R W' a c) :
    Simulates A W e p (q >>= fun _ => Pure.pure c) R := by
  intro m r hrelated hcurrent
  have h := h m r hrelated hcurrent
  simp only [Bind.bind, EStateM.bind]
  generalize p m = x at h ⊢
  generalize q r = y at h ⊢
  cases h with
  | ok hkeeps hrelated hcurrent h => exact .ok hkeeps hrelated hcurrent (hR _ _ _ hkeeps h)
  | error hkeeps hrelated hcurrent h => exact .error hkeeps hrelated hcurrent h
  | broken hkeeps hrelated hcurrent hlossy => exact .broken hkeeps hrelated hcurrent hlossy

end Simulates

end

section

variable {A : Address → Prop} {W : World} {σ : Scopes} {e : Environment} {env : Env}
  {m : Machine} {r : State} {x : String}

def Stands (W : World) (env : Env) (x : String) (a : Address) : Prop :=
  (∃ l b, env.names.find? x = some l ∧ W.places[l]? = some ⟨a, x, b⟩) ∨
    env.names.find? x = none ∧ a = 0

theorem Related.read (h : Related W m r) {a : Address} (ha : Stands W env x a) :
    Option.Rel (Same W) (m.store.readTable a x) (r.read? env x) := by
  unfold State.read?
  rcases ha with ⟨l, b, hl, hp⟩ | ⟨hnone, rfl⟩
  · rw [hl]
    exact (h.value l _ hp).1
  · rw [hnone]
    exact h.globals x

theorem fill_eq_self {l : Location} {a : Address} (h : W.places[l]? = some ⟨a, x, true⟩) :
    W.fill l = W := by
  have hplaces : W.places.modify l (fun p => { p with isSet := true }) = W.places := by
    apply List.ext_getElem?
    intro k
    rw [List.getElem?_modify]
    by_cases hk : l = k
    · subst hk
      simp [h]
    · simp [hk]
  rw [fill, hplaces]

/-- Writing to the entry of a name that has a value is giving its location, or the global name, another
value. -/
theorem Related.write (h : Related W m r) {a : Address} (ha : Stands W env x a)
    (hset : (m.store.readTable a x).isSome = true) {v : LoxLang.Value} {v' : Value}
    (hv : Same W v v') :
    Related W { m with store := m.store.writeTable a x v } (r.write env x v') := by
  unfold State.write
  rcases ha with ⟨l, b, hl, hp⟩ | ⟨hnone, rfl⟩
  · rw [hl]
    have hb : true = b := hset.symm.trans (h.value l _ hp).2
    subst hb
    have hfill := fill_eq_self hp
    have hwritten := h.fill hp (by rwa [hfill])
    rwa [hfill] at hwritten
  · rw [hnone]
    exact h.setGlobal x hv

theorem locate_of_distance {id : ReferenceId} {d : Nat} {a : Address}
    (hd : m.distances[id]? = some d) (ha : m.current[d]? = some a) (name : Token) :
    Run.locate id name m = if (m.store.readTable a name.lexeme).isSome then .ok a m
      else .error (.runtime (.undefined name)) m := by
  unfold Run.locate
  rw [hd]
  by_cases hset : (m.store.readTable a name.lexeme).isSome = true
  · simp [Store.ownerAt?, ha, Option.filter, Store.binds, hset]
  · simp [Store.ownerAt?, ha, Option.filter, Store.binds, hset]

theorem locate_of_none {id : ReferenceId} (hd : m.distances[id]? = none) (name : Token) :
    Run.locate id name m = if (m.store.readTable 0 name.lexeme).isSome then .ok 0 m
      else .error (.runtime (.undefined name)) m := by
  unfold Run.locate
  rw [hd]
  by_cases hset : (m.store.readTable 0 name.lexeme).isSome = true
  · simp [Store.owner?, Environment.globals, Store.binds, hset]
  · simp [Store.owner?, Environment.globals, Store.binds, hset]

/-- The machine looks for a variable in the table where its entry stands. -/
theorem locate_eq (h : Related W m r) (hfits : Fits W σ m.current env.names) {id : ReferenceId}
    {name : Token} (hknown : W.known id (σ.distance? name.lexeme)) :
    ∃ a, Stands W env name.lexeme a ∧ Run.locate id name m =
      if (m.store.readTable a name.lexeme).isSome then .ok a m
      else .error (.runtime (.undefined name)) m := by
  have hdistance := h.known id _ hknown
  rw [← h.distances] at hdistance
  cases hd : σ.distance? name.lexeme with
  | none =>
    rw [hd] at hdistance
    exact ⟨0, .inr ⟨hfits.global _ hd, rfl⟩, locate_of_none hdistance name⟩
  | some d =>
    rw [hd] at hdistance
    obtain ⟨l, a, b, hl, ha, hp, -⟩ := hfits.inner _ d hd
    exact ⟨a, .inl ⟨l, b, hl, hp⟩, locate_of_distance hdistance ha name⟩

theorem read_of_locate {id : ReferenceId} {name : Token} {a : Address} {v : LoxLang.Value}
    (h : Run.locate id name m = .ok a m) (hv : m.store.readTable a name.lexeme = some v) :
    Run.read id name m = .ok v m := by
  simp only [Run.read, Bind.bind, EStateM.bind, h, get, getThe, MonadStateOf.get]
  delta EStateM.get
  simp only [hv]
  rfl

theorem read_of_locate_error {id : ReferenceId} {name : Token} {signal : LoxLang.Signal}
    (h : Run.locate id name m = .error signal m) : Run.read id name m = .error signal m := by
  change EStateM.bind (Run.locate id name) _ m = _
  rw [EStateM.bind, h]

/-- A use finds at the recorded distance what the reference finds by its name. -/
theorem simulates_read (hfits : Fits W σ e env.names) {id : ReferenceId} {name : Token}
    (hknown : W.known id (σ.distance? name.lexeme)) :
    Simulates A W e (Run.read id name) (read env name) Same := by
  intro m r hrelated hcurrent
  subst hcurrent
  obtain ⟨a, hstands, hlocate⟩ := locate_eq hrelated hfits hknown
  have hread := hrelated.read hstands
  unfold read
  generalize hv : m.store.readTable a name.lexeme = v at hread hlocate
  generalize r.read? env name.lexeme = v' at hread ⊢
  cases hread with
  | none =>
    rw [read_of_locate_error hlocate]
    exact .error (.refl W) hrelated rfl (.runtime _)
  | some hsame =>
    rw [read_of_locate hlocate hv]
    exact .ok (.refl W) hrelated rfl hsame

/-- An assignment changes the entry that the reference changes by its name, or fails with it. -/
theorem simulates_assign (hfits : Fits W σ e env.names) {id : ReferenceId} {name : Token}
    (hknown : W.known id (σ.distance? name.lexeme)) {v : LoxLang.Value} {v' : Value}
    (hv : Same W v v') :
    Simulates A W e (Run.assign id name v) (assign env name v') fun _ _ _ => True := by
  intro m r hrelated hcurrent
  subst hcurrent
  obtain ⟨a, hstands, hlocate⟩ := locate_eq hrelated hfits hknown
  have hread := hrelated.read hstands
  have hwrite := fun hset => hrelated.write hstands hset hv
  simp only [Run.assign, Bind.bind, EStateM.bind, hlocate, assign]
  generalize m.store.readTable a name.lexeme = w at hread hwrite ⊢
  generalize r.read? env name.lexeme = w' at hread ⊢
  cases hread with
  | none => exact .error (.refl W) hrelated rfl (.runtime _)
  | some _ => exact .ok (.refl W) (hwrite rfl) rfl trivial

end

end LoxLang.Lexical
