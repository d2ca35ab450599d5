import LoxLang.Proofs.Commutes
import LoxLang.Proofs.Running.Undefined
import LoxLang.Proofs.Stream.Limited

/-!
Programs whose output runs out of room. Until a line is printed for which there is no room left,
a program runs as it does with all room; at that line it stops, with all that was known then and with
the part of the line that there was room for. Main statement: `interpret_limit`.
-/
namespace LoxLang

def reached {ε σ α : Type} : EStateM.Result ε σ α → σ
  | .ok _ s => s
  | .error _ s => s

def Machine.withOutput (o : Stream) (m : Machine) : Machine := { m with output := o }

def Machine.limit (n : Nat) (m : Machine) : Machine := m.withOutput (m.output.limit n)

/-- The step has nothing to do with the output, and comes back to where it started. -/
structure Quiet {α : Type} (a : Run α) : Prop where
  current : ∀ m, (reached (a m)).current = m.current
  output : ∀ m, (reached (a m)).output = m.output
  unfailing : ∀ m f m', a m ≠ .error (.output f) m'
  blind : ∀ o, Commutes (Machine.withOutput o) id id a a

section

variable {α β : Type} {a : Run α} {f : α → Run β} {m m' : Machine}

theorem bind_of_ok {x : α} (h : a m = .ok x m') : (a >>= f) m = f x m' := by
  simp only [Bind.bind, EStateM.bind, h]

theorem bind_of_error {signal : Signal} (h : a m = .error signal m') :
    (a >>= f) m = .error signal m' := by
  simp only [Bind.bind, EStateM.bind, h]

theorem quiet_pure (x : α) : Quiet (pure x : Run α) where
  current _ := rfl
  output _ := rfl
  unfailing _ _ _ := nofun
  blind _ := .pure x

theorem quiet_stop (t : Token) (cause : RuntimeError.Cause) : Quiet (Run.stop t cause : Run α) where
  current _ := rfl
  output _ := rfl
  unfailing _ _ _ := nofun
  blind _ := fun _ => rfl

theorem quiet_returned (v : Value) : Quiet (throw (.returned v) : Run α) where
  current _ := rfl
  output _ := rfl
  unfailing _ _ _ := nofun
  blind _ := fun _ => rfl

theorem quiet_exhausted : Quiet (throw .exhausted : Run α) where
  current _ := rfl
  output _ := rfl
  unfailing _ _ _ := nofun
  blind _ := fun _ => rfl

/-- Quiet steps may be put one after the other. -/
theorem Quiet.bind (ha : Quiet a) (hf : ∀ x, Quiet (f x)) : Quiet (a >>= f) where
  -- a step that fails ends the sequence where it is: the second step only counts after a result
  current m := by
    have hfirst := ha.current m
    cases hm : a m with
    | ok x m' =>
      rw [hm] at hfirst
      rw [bind_of_ok hm, (hf x).current]
      exact hfirst
    | error signal m' =>
      rw [hm] at hfirst
      rw [bind_of_error hm]
      exact hfirst
  output m := by
    have hfirst := ha.output m
    cases hm : a m with
    | ok x m' =>
      rw [hm] at hfirst
      rw [bind_of_ok hm, (hf x).output]
      exact hfirst
    | error signal m' =>
      rw [hm] at hfirst
      rw [bind_of_error hm]
      exact hfirst
  unfailing m failure m' h := by
    rcases bind_eq_error h with h | ⟨x, m₁, -, h⟩
    · exact ha.unfailing m failure m' h
    · exact (hf x).unfailing m₁ failure m' h
  blind o := (ha.blind o).bind fun x => (hf x).blind o

theorem quiet_define (x : String) (v : Value) : Quiet (Run.define x v) where
  current _ := rfl
  output _ := rfl
  unfailing _ _ _ := nofun
  blind _ := fun _ => rfl

theorem quiet_makeClosure (d : FunctionDecl) : Quiet (Run.makeClosure d) where
  current _ := rfl
  output _ := rfl
  unfailing _ _ _ := nofun
  blind _ := fun _ => rfl

theorem quiet_readClock : Quiet Run.readClock where
  current _ := rfl
  output _ := rfl
  unfailing _ _ _ := nofun
  blind _ := fun _ => rfl

theorem quiet_locate (id : ReferenceId) (name : Token) : Quiet (Run.locate id name) where
  current m := by
    simp only [Run.locate]
    split <;> rfl
  output m := by
    simp only [Run.locate]
    split <;> rfl
  unfailing m failure m' h := by
    cases signal_of_locate h
  blind o := by
    intro m
    simp only [Run.locate, Machine.withOutput]
    split <;> rfl

/-- What is read at a known address, or else the error of an undefined variable. -/
theorem quiet_readAt (name : Token) (a : Address) : Quiet (do
    match (← get).store.readTable a name.lexeme with
    | some v => return v
    | none => throw (.runtime (.undefined name)) : Run Value) := by
  have heq : ∀ m : Machine, (do
      match (← get).store.readTable a name.lexeme with
      | some v => return v
      | none => throw (.runtime (.undefined name)) : Run Value) m =
        match m.store.readTable a name.lexeme with
        | some v => .ok v m
        | none => .error (.runtime (.undefined name)) m := by
    intro m
    have hget : (get : Run Machine) m = .ok m m := rfl
    rw [bind_of_ok hget]
    cases m.store.readTable a name.lexeme <;> rfl
  constructor
  · intro m
    rw [heq]
    split <;> rfl
  · intro m
    rw [heq]
    split <;> rfl
  · intro m failure m' h
    rw [heq] at h
    split at h <;> cases h
  · intro o m
    rw [heq, heq, Machine.withOutput]
    cases m.store.readTable a name.lexeme <;> rfl

theorem quiet_read (id : ReferenceId) (name : Token) : Quiet (Run.read id name) :=
  (quiet_locate id name).bind fun a => quiet_readAt name a

theorem quiet_assign (id : ReferenceId) (name : Token) (v : Value) :
    Quiet (Run.assign id name v) := by
  apply (quiet_locate id name).bind
  intro a
  exact ⟨fun _ => rfl, fun _ => rfl, fun _ _ _ => nofun, fun _ _ => rfl⟩

theorem quiet_orStop (t : Token) (result : Except RuntimeError.Cause α) :
    Quiet (Run.orStop t result) := by
  cases result with
  | ok a => exact quiet_pure a
  | error cause => exact quiet_stop t cause

theorem quiet_callNative (paren : Token) (f : NativeFunction) (arguments : List Value) :
    Quiet (Run.callNative paren f arguments) :=
  (quiet_orStop paren _).bind fun _ => quiet_readClock.bind fun _ => quiet_orStop paren _

theorem quiet_bindArguments (params : List Token) (vs : List Value) :
    Quiet (Run.bindArguments params vs) := by
  induction params generalizing vs with
  | nil => exact quiet_pure _
  | cons p params ih =>
    cases vs with
    | nil => exact quiet_pure _
    | cons v vs => exact (quiet_define _ v).bind fun _ => ih vs

end

def HasRoom {α : Type} (n : Nat) (a : Run α) (m : Machine) : Prop :=
  (reached (a m)).output.written.size ≤ n ∧
    a (m.limit n) = Changed (Machine.limit n) id id (a m)

/-- With limited room the step stops where the line is printed: the machine is that of the print, in the
environment that the step was started in. -/
structure StopsAt {α : Type} (n : Nat) (a : Run α) (m p : Machine) (line : String) : Prop where
  room : p.output.written.size ≤ n
  full : n < (p.output.write line).written.size
  grows : (p.output.write line).Grows (reached (a m)).output
  stops : a (m.limit n) = .error (.output .full)
    { p with output := (p.output.write line).limit n, current := m.current }

section

variable {α β : Type} {n : Nat} {a : Run α} {f : α → Run β} {m m' p : Machine} {line : String}

theorem HasRoom.bind_of_error {signal : Signal} (h : HasRoom n a m) (hm : a m = .error signal m') :
    HasRoom n (a >>= f) m := by
  obtain ⟨hfits, heq⟩ := h
  rw [hm] at hfits heq
  have hwhole : (a >>= f) m = .error signal m' := LoxLang.bind_of_error hm
  refine ⟨?_, ?_⟩
  · rw [hwhole]
    exact hfits
  · rw [hwhole]
    exact LoxLang.bind_of_error heq

/-- Two steps have room if each has, the second one after the first. -/
theorem HasRoom.bind {x : α} (h : HasRoom n a m) (hm : a m = .ok x m') (h' : HasRoom n (f x) m') :
    HasRoom n (a >>= f) m := by
  obtain ⟨-, heq⟩ := h
  rw [hm] at heq
  have hwhole : (a >>= f) m = f x m' := bind_of_ok hm
  have hlimited : (a >>= f) (m.limit n) = f x (m'.limit n) := bind_of_ok heq
  refine ⟨?_, ?_⟩
  · rw [hwhole]
    exact h'.1
  · rw [hwhole, hlimited]
    exact h'.2

/-- Nothing follows a step that stops, whatever would follow it with more room. -/
theorem StopsAt.bind_first (h : StopsAt n a m p line)
    (hgrows : (p.output.write line).Grows (reached ((a >>= f) m)).output) :
    StopsAt n (a >>= f) m p line where
  room := h.room
  full := h.full
  grows := hgrows
  stops := LoxLang.bind_of_error h.stops

/-- Where the second step stops at a line, both together do. -/
theorem StopsAt.bind_second {x : α} (h : StopsAt n (f x) m' p line) (hroom : HasRoom n a m)
    (hm : a m = .ok x m') (hcurrent : m'.current = m.current) : StopsAt n (a >>= f) m p line := by
  have heq := hroom.2
  rw [hm] at heq
  have hlimited : (a >>= f) (m.limit n) = f x (m'.limit n) := bind_of_ok heq
  refine ⟨h.room, h.full, ?_, ?_⟩
  · rw [bind_of_ok hm]
    exact h.grows
  · rw [hlimited, h.stops, hcurrent]

end

structure Cuts {α : Type} (n : Nat) (prints : Machine → String → Prop) (a : Run α) (m : Machine) :
    Prop where
  current : (reached (a m)).current = m.current
  grows : m.output.Grows (reached (a m)).output
  unfailing : m.output.capacity = none → ∀ f m', a m ≠ .error (.output f) m'
  limited : m.output.capacity = none → m.output.written.size ≤ n →
    HasRoom n a m ∨ ∃ p line, prints p line ∧ StopsAt n a m p line

namespace Cuts

variable {α β : Type} {n : Nat} {prints prints' : Machine → String → Prop} {a : Run α}
  {f : α → Run β} {m : Machine}

/-- A quiet step is not cut off. -/
theorem ofQuiet (h : Quiet a) : Cuts n prints a m where
  current := h.current m
  grows := by
    rw [h.output]
    exact .refl _
  unfailing _ := h.unfailing m
  limited hunlimited hroom := by
    refine .inl ⟨by rwa [h.output], ?_⟩
    rw [Machine.limit, h.blind (m.output.limit n) m]
    have hsame (m' : Machine) (h : m'.output = m.output) :
        m'.withOutput (m.output.limit n) = m'.limit n := by
      rw [Machine.limit, h]
    have houtput := h.output m
    generalize a m = result at houtput ⊢
    cases result with
    | ok x m' => exact congrArg (EStateM.Result.ok x) (hsame m' houtput)
    | error signal m' => exact congrArg (EStateM.Result.error signal) (hsame m' houtput)

theorem mono (h : Cuts n prints a m) (le : ∀ p line, prints p line → prints' p line) :
    Cuts n prints' a m where
  current := h.current
  grows := h.grows
  unfailing := h.unfailing
  limited hunlimited hroom := by
    rcases h.limited hunlimited hroom with hall | ⟨p, line, hprints, hstops⟩
    · exact .inl hall
    · exact .inr ⟨p, line, le p line hprints, hstops⟩

/-- A step that breaks off is the whole of a sequence. -/
theorem bind_of_error {signal : Signal} {m' : Machine} (ha : Cuts n prints a m)
    (hm : a m = .error signal m') : Cuts n prints (a >>= f) m := by
  have hwhole : reached ((a >>= f) m) = reached (a m) := by
    rw [LoxLang.bind_of_error hm, hm]
    rfl
  constructor
  · rw [hwhole]
    exact ha.current
  · rw [hwhole]
    exact ha.grows
  · intro hunlimited failure m'' h
    rw [LoxLang.bind_of_error hm] at h
    cases h
    exact ha.unfailing hunlimited failure m' hm
  · intro hunlimited hroom
    rcases ha.limited hunlimited hroom with hall | ⟨p, line, hprints, hstops⟩
    · exact .inl (hall.bind_of_error hm)
    · exact .inr ⟨p, line, hprints, hstops.bind_first (hwhole ▸ hstops.grows)⟩

/-- Two steps are cut off at the first line there is no room for, in whichever it is printed. -/
theorem bind (ha : Cuts n prints a m) (hf : ∀ x m', a m = .ok x m' → Cuts n prints (f x) m') :
    Cuts n prints (a >>= f) m := by
  cases hm : a m with
  | error signal m' => exact ha.bind_of_error hm
  | ok x m' =>
    have hwhole : (a >>= f) m = f x m' := bind_of_ok hm
    have hrest := hf x m' hm
    have hcurrent := ha.current
    have hgrows := ha.grows
    rw [hm] at hcurrent hgrows
    have hcurrent' : m'.current = m.current := hcurrent
    have hgrowsAll := hgrows.trans hrest.grows
    constructor
    · rw [hwhole, hrest.current, hcurrent']
    · rw [hwhole]
      exact hgrowsAll
    · intro hunlimited
      rw [hwhole]
      exact hrest.unfailing (hgrows.capacity.trans hunlimited)
    · intro hunlimited hroom
      rcases ha.limited hunlimited hroom with hall | ⟨p, line, hprints, hstops⟩
      · have hfits := hall.1
        rw [hm] at hfits
        rcases hrest.limited (hgrows.capacity.trans hunlimited) hfits with
          hall' | ⟨p, line, hprints, hstops⟩
        · exact .inl (hall.bind hm hall')
        · exact .inr ⟨p, line, hprints, hstops.bind_second hall hm hcurrent'⟩
      · have hline := hstops.grows
        rw [hm] at hline
        refine .inr ⟨p, line, hprints, hstops.bind_first ?_⟩
        rw [hwhole]
        exact hline.trans hrest.grows

theorem ite {c : Prop} [Decidable c] {b : Run α} (ha : c → Cuts n prints a m)
    (hb : ¬c → Cuts n prints b m) : Cuts n prints (if c then a else b) m := by
  split
  · next h => exact ha h
  · next h => exact hb h

/-- A print is where a program may stop. -/
theorem print (text : String) (h : prints m (text ++ "\n")) : Cuts n prints (Run.print text) m := by
  have hreached : (reached (Run.print text m)) =
      { m with output := m.output.write (text ++ "\n") } := by
    simp only [Run.print]
    split <;> rfl
  constructor
  · rw [hreached]
  · rw [hreached]
    exact Stream.grows_write _ _
  · intro hunlimited failure m' hfails
    simp only [Run.print, Stream.fits, hunlimited] at hfails
    cases hfails
  · intro hunlimited hroom
    have hfits : m.output.fits (text ++ "\n") = true := by
      simp only [Stream.fits, hunlimited]
    have hfits' := Stream.fits_limit hunlimited hroom (text ++ "\n")
    have hwrite := Stream.write_limit hunlimited n (text ++ "\n")
    have hlimit : (m.limit n).output = m.output.limit n := rfl
    by_cases hsize : (m.output.write (text ++ "\n")).written.size ≤ n
    · left
      refine ⟨by rwa [hreached], ?_⟩
      simp only [Run.print, hlimit, hfits, hfits', hwrite, decide_eq_true hsize, if_true]
      rfl
    · right
      refine ⟨m, text ++ "\n", h, hroom, by omega, ?_, ?_⟩
      · rw [hreached]
        exact .refl _
      · simp only [Run.print, hlimit, hfits', hwrite, decide_eq_false hsize]
        rfl

theorem inNewScope_apply (outer : Environment) (a : Run α) (m : Machine) :
    Run.inNewScope outer a m =
      match a (m.enter outer) with
      | .ok x m' => .ok x { m' with current := m.current }
      | .error signal m' => .error signal { m' with current := m.current } := rfl

/-- A step in a new scope comes back from it, however it ends. -/
theorem inNewScope {outer : Environment} (h : Cuts n prints a (m.enter outer)) :
    Cuts n prints (Run.inNewScope outer a) m := by
  have hreached : reached (Run.inNewScope outer a m) =
      { reached (a (m.enter outer)) with current := m.current } := by
    rw [inNewScope_apply]
    cases a (m.enter outer) <;> rfl
  constructor
  · rw [hreached]
  · rw [hreached]
    exact h.grows
  · intro hunlimited failure m' hfails
    rw [inNewScope_apply] at hfails
    cases hm : a (m.enter outer) with
    | ok x m₁ =>
      rw [hm] at hfails
      cases hfails
    | error signal m₁ =>
      rw [hm] at hfails
      cases hfails
      exact h.unfailing hunlimited failure m₁ hm
  · intro hunlimited hroom
    have henter : (m.limit n).enter outer = (m.enter outer).limit n := rfl
    rcases h.limited hunlimited hroom with ⟨hfits, heq⟩ | ⟨p, line, hprints, hstops⟩
    · left
      refine ⟨by rw [hreached]; exact hfits, ?_⟩
      rw [inNewScope_apply, inNewScope_apply, henter, heq]
      cases a (m.enter outer) <;> rfl
    · refine .inr ⟨p, line, hprints, hstops.room, hstops.full, ?_, ?_⟩
      · rw [hreached]
        exact hstops.grows
      · rw [inNewScope_apply, henter, hstops.stops]
        rfl

theorem catchReturn {body : Run Unit} (h : Cuts n prints body m) :
    Cuts n prints (Run.catchReturn body) m := by
  have hreached : reached (Run.catchReturn body m) = reached (body m) := by
    unfold Run.catchReturn
    cases body m with
    | ok u m' => rfl
    | error signal m' => cases signal <;> rfl
  constructor
  · rw [hreached]
    exact h.current
  · rw [hreached]
    exact h.grows
  · intro hunlimited failure m' hfails
    exact h.unfailing hunlimited failure m' (catchReturn_eq_error hfails)
  · intro hunlimited hroom
    rcases h.limited hunlimited hroom with ⟨hfits, heq⟩ | ⟨p, line, hprints, hstops⟩
    · left
      refine ⟨by rwa [hreached], ?_⟩
      unfold Run.catchReturn
      rw [heq]
      cases body m with
      | ok u m' => rfl
      | error signal m' => cases signal <;> rfl
    · refine .inr ⟨p, line, hprints, hstops.room, hstops.full, ?_, ?_⟩
      · rw [hreached]
        exact hstops.grows
      · unfold Run.catchReturn
        rw [hstops.stops]

end Cuts

def Prints (k : Nat) (t : Task) (m : Machine) (p : Machine) (line : String) : Prop :=
  ∃ j e m' v, Begins k t m (j + 1) (.stmt (.print e)) m' ∧ evaluate j e m' = .ok v p ∧
    line = v.text ++ "\n"

section

variable {n k : Nat} {t t' : Task} {m m' p : Machine} {line : String} {own : Option String}

theorem Prints.of_calls (hcalls : Calls k t m t' m') (h : Prints k t' m' p line) :
    Prints (k + 1) t m p line := by
  obtain ⟨j, e, m₁, v, hbegins, hvalue, hline⟩ := h
  exact ⟨j, e, m₁, v, (Begins.itself.call hcalls).trans hbegins, hvalue, hline⟩

theorem Cuts.of_calls {α : Type} {a : Run α} (hcalls : Calls k t m t' m')
    (h : Cuts n (Prints k t' m') a m') : Cuts n (Prints (k + 1) t m) a m' :=
  h.mono fun _ _ => Prints.of_calls hcalls

structure CutsOff (n k : Nat) : Prop where
  expr : ∀ own e m, Cuts n (Prints k (.expr own e) m) (evaluate k e) m
  exprs : ∀ own es m, Cuts n (Prints k (.exprs own es) m) (evaluateAll k es) m
  stmt : ∀ s m, Cuts n (Prints k (.stmt s) m) (execute k s) m
  stmts : ∀ ss m, Cuts n (Prints k (.stmts ss) m) (executeAll k ss) m

theorem cutsOff_zero (n : Nat) : CutsOff n 0 where
  expr own e m := by
    rw [evaluate]
    exact .ofQuiet quiet_exhausted
  exprs own es m := by
    rw [evaluateAll]
    exact .ofQuiet quiet_exhausted
  stmt s m := by
    rw [execute]
    exact .ofQuiet quiet_exhausted
  stmts ss m := by
    rw [executeAll]
    exact .ofQuiet quiet_exhausted

/-- A call is cut off where its callee, its arguments or its body are. -/
theorem cuts_call (ih : CutsOff n k) {callee : Expr} {paren : Token} {arguments : List Expr} :
    Cuts n (Prints (k + 1) (.expr own (.call callee paren arguments)) m)
      (evaluate (k + 1) (.call callee paren arguments)) m := by
  rw [evaluate]
  apply ((ih.expr own callee m).of_calls .callee).bind
  intro f m₁ hcallee
  apply ((ih.exprs own arguments m₁).of_calls (.arguments hcallee)).bind
  intro vs m₂ harguments
  cases f with
  | native f => exact .ofQuiet (quiet_callNative paren f vs)
  | function f =>
    show Cuts _ _ (Run.callClosure paren f vs (executeAll k)) m₂
    apply (Cuts.ofQuiet (quiet_orStop paren _)).bind
    intro _ m₃ hchecked
    obtain ⟨harity, rfl⟩ := eq_of_checkArity hchecked
    apply Cuts.catchReturn
    apply Cuts.inNewScope
    apply (Cuts.ofQuiet (quiet_bindArguments _ vs)).bind
    intro _ m₄ hbound
    exact (ih.stmts f.declaration.body m₄).of_calls (.body hcallee harguments harity hbound)
  | _ => exact .ofQuiet (quiet_stop paren _)

/-- One unit of fuel more for expressions, which print in the tasks that they call. -/
theorem cuts_expr (ih : CutsOff n k) (own : Option String) (e : Expr) (m : Machine) :
    Cuts n (Prints (k + 1) (.expr own e) m) (evaluate (k + 1) e) m := by
  -- an expression prints in the tasks that it calls; its own step is quiet
  cases e with
  | literal value =>
    rw [evaluate]
    exact .ofQuiet (quiet_pure _)
  | grouping inner =>
    rw [evaluate]
    exact (ih.expr own inner m).of_calls .grouping
  | unary operator right =>
    rw [evaluate]
    apply ((ih.expr own right m).of_calls .unary).bind
    intro v _ _
    exact .ofQuiet (quiet_orStop operator _)
  | binary left operator right =>
    rw [evaluate]
    apply ((ih.expr own left m).of_calls .binaryLeft).bind
    intro v m₁ hleft
    apply ((ih.expr own right m₁).of_calls (.binaryRight hleft)).bind
    intro w _ _
    exact .ofQuiet (quiet_orStop operator _)
  | logical left operator right =>
    rw [evaluate]
    apply ((ih.expr own left m).of_calls .logicalLeft).bind
    intro v m₁ hleft
    apply Cuts.ite
    · intro _
      exact .ofQuiet (quiet_pure v)
    · intro hdecides
      have hdecides := Bool.eq_false_iff.mpr hdecides
      exact (ih.expr own right m₁).of_calls (.logicalRight hleft hdecides)
  | reference id name =>
    rw [evaluate]
    exact .ofQuiet (quiet_read id name)
  | assign id name value =>
    rw [evaluate]
    apply ((ih.expr own value m).of_calls .assigned).bind
    intro v m₁ _
    exact .ofQuiet ((quiet_assign id name v).bind fun _ => quiet_pure v)
  | call callee paren arguments => exact cuts_call ih

theorem cuts_exprs (ih : CutsOff n k) (own : Option String) (es : List Expr) (m : Machine) :
    Cuts n (Prints (k + 1) (.exprs own es) m) (evaluateAll (k + 1) es) m := by
  cases es with
  | nil =>
    rw [evaluateAll]
    · exact .ofQuiet (quiet_pure [])
    · exact Nat.succ_ne_zero k
  | cons e es =>
    rw [evaluateAll]
    apply ((ih.expr own e m).of_calls .firstExpr).bind
    intro v m₁ hfirst
    apply ((ih.exprs own es m₁).of_calls (.laterExprs hfirst)).bind
    intro vs _ _
    exact .ofQuiet (quiet_pure (v :: vs))

/-- One unit of fuel more for statements; a `print` may be the line itself. -/
theorem cuts_stmt (ih : CutsOff n k) (s : Stmt) (m : Machine) :
    Cuts n (Prints (k + 1) (.stmt s) m) (execute (k + 1) s) m := by
  cases s with
  | expression e =>
    rw [execute]
    apply ((ih.expr none e m).of_calls .expression).bind
    intro _ _ _
    exact .ofQuiet (quiet_pure ())
  | print e =>
    rw [execute]
    apply ((ih.expr none e m).of_calls .print).bind
    intro v m₁ hvalue
    exact .print v.text ⟨k, e, m, v, .itself, hvalue, rfl⟩
  | declare name initializer =>
    cases initializer with
    | none =>
      rw [execute]
      exact .ofQuiet (quiet_define _ _)
    | some e =>
      rw [execute]
      apply ((ih.expr _ e m).of_calls .initializer).bind
      intro v _ _
      exact .ofQuiet (quiet_define _ v)
  | block body =>
    rw [execute]
    have hbody := ((ih.stmts body (m.enter m.current)).of_calls .block).inNewScope
    refine ⟨hbody.current, hbody.grows, hbody.unfailing, ?_⟩
    intro hunlimited hroom
    rcases hbody.limited hunlimited hroom with h | ⟨p, line, hprints, hstops⟩
    · exact .inl ⟨h.1, h.2⟩
    · exact .inr ⟨p, line, hprints, hstops.room, hstops.full, hstops.grows, hstops.stops⟩
  | ifThen condition thenBranch =>
    rw [execute]
    apply ((ih.expr none condition m).of_calls .ifThenCondition).bind
    intro v m₁ hcondition
    apply Cuts.ite
    · intro htruthy
      exact (ih.stmt thenBranch m₁).of_calls (.ifThenBranch hcondition htruthy)
    · intro _
      exact .ofQuiet (quiet_pure ())
  | ifElse condition thenBranch elseBranch =>
    rw [execute]
    apply ((ih.expr none condition m).of_calls .ifElseCondition).bind
    intro v m₁ hcondition
    have hbranch := (ih.stmt (if v.isTruthy then thenBranch else elseBranch) m₁).of_calls
      (.ifElseBranch hcondition)
    apply Cuts.ite
    · intro htruthy
      rw [if_pos htruthy] at hbranch
      exact hbranch
    · intro htruthy
      rw [if_neg htruthy] at hbranch
      exact hbranch
  | whileLoop condition body =>
    rw [execute]
    apply ((ih.expr none condition m).of_calls .whileCondition).bind
    intro v m₁ hcondition
    apply Cuts.ite
    · intro htruthy
      apply ((ih.stmt body m₁).of_calls (.whileBody hcondition htruthy)).bind
      intro _ m₂ hbody
      exact (ih.stmt _ m₂).of_calls (.whileAgain hcondition htruthy hbody)
    · intro _
      exact .ofQuiet (quiet_pure ())
  | function name params body =>
    rw [execute]
    exact .ofQuiet ((quiet_makeClosure _).bind fun _ => quiet_define _ _)
  | ret keyword value =>
    cases value with
    | none =>
      rw [execute]
      exact .ofQuiet (quiet_returned _)
    | some e =>
      rw [execute]
      apply ((ih.expr none e m).of_calls .returned).bind
      intro v _ _
      exact .ofQuiet (quiet_returned v)

/-- A list of statements is cut off where one of them is. -/
theorem cuts_stmts (ih : CutsOff n k) (ss : List Stmt) (m : Machine) :
    Cuts n (Prints (k + 1) (.stmts ss) m) (executeAll (k + 1) ss) m := by
  cases ss with
  | nil =>
    rw [executeAll]
    · exact .ofQuiet (quiet_pure ())
    · exact Nat.succ_ne_zero k
  | cons s ss =>
    rw [executeAll]
    apply ((ih.stmt s m).of_calls .firstStmt).bind
    intro _ m₁ hfirst
    exact (ih.stmts ss m₁).of_calls (.laterStmts hfirst)

/-- Whatever is run, it does the same with limited room or stops at a line that it prints. -/
theorem cutsOff (n k : Nat) : CutsOff n k := by
  induction k with
  | zero => exact cutsOff_zero n
  | succ k ih => exact ⟨cuts_expr ih, cuts_exprs ih, cuts_stmt ih, cuts_stmts ih⟩

/-- The line that a program prints on some output is the first one that there is no room for, and with
room for `n` bytes the program ends there, with nothing done after it. -/
structure FullAt (n k : Nat) (program : List Stmt) (m p : Machine) (line : String) : Prop where
  prints : Prints k (.stmts program) m p line
  room : p.output.written.size ≤ n
  full : n < (p.output.write line).written.size
  grows : (p.output.write line).Grows (interpret k program m).2.output
  stops : interpret k program (m.limit n) =
    (.output .full, { p with output := (p.output.write line).limit n, current := m.current })

theorem reached_executeAll (k : Nat) (program : List Stmt) (m : Machine) :
    reached (executeAll k program m) = (interpret k program m).2 := by
  unfold interpret
  cases executeAll k program m with
  | ok u m' => rfl
  | error signal m' => cases signal <;> rfl

/-- A program that prints no more than there is room for runs as with all room; any other one stops at a
line that it prints. -/
theorem interpret_limit (program : List Stmt) (hunlimited : m.output.capacity = none)
    (hroom : m.output.written.size ≤ n) :
    ((interpret k program m).2.output.written.size ≤ n ∧
      interpret k program (m.limit n) =
        ((interpret k program m).1, (interpret k program m).2.limit n)) ∨
    ∃ p line, FullAt n k program m p line := by
  have hreached := reached_executeAll k program m
  rcases ((cutsOff n k).stmts program m).limited hunlimited hroom with
    ⟨hfits, heq⟩ | ⟨p, line, hprints, hstops⟩
  · left
    rw [hreached] at hfits
    refine ⟨hfits, ?_⟩
    unfold interpret
    rw [heq]
    cases executeAll k program m with
    | ok u m' => rfl
    | error signal m' => cases signal <;> rfl
  · refine .inr ⟨p, line, hprints, hstops.room, hstops.full, ?_, ?_⟩
    · rw [← hreached]
      exact hstops.grows
    · unfold interpret
      rw [hstops.stops]

/-- An output that never fails does not end a program. -/
theorem fst_interpret_ne_output (program : List Stmt) (hunlimited : m.output.capacity = none)
    (hflush : m.output.flushFails = false) (failure : Stream.Failure) :
    (interpret k program m).1 ≠ .output failure := by
  have hcuts := (cutsOff 0 k).stmts program m
  have hgrows := hcuts.grows
  have hunfailing := hcuts.unfailing hunlimited
  have hend (m' : Machine) (h : m.output.Grows m'.output) : m'.flush = .finished := by
    rw [Machine.flush, h.flushFails, hflush]
    rfl
  intro h
  unfold interpret at h
  cases hm : executeAll k program m with
  | ok u m' =>
    rw [hm] at h hgrows
    cases (hend m' hgrows).symm.trans h
  | error signal m' =>
    rw [hm] at h hgrows
    cases signal with
    | returned v => cases (hend m' hgrows).symm.trans h
    | runtime e => cases h
    | output f => exact hunfailing f m' hm
    | exhausted => cases h

end

end LoxLang
