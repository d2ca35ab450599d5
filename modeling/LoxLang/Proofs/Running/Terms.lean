import LoxLang.Proofs.Running.FullOutput
import LoxLang.Proofs.Tree.WellFormed

/-!
Where function values come from. Steps other than the execution of a declaration make none: they hand on what
they are given and what is stored, so that whatever holds of all functions there are goes on to hold of them.
Main statements: one `keeps_` lemma a step.
-/
namespace LoxLang

/-- The error says that there is no such operator. -/
def RuntimeError.BlamesOperator (e : RuntimeError) : Prop :=
  e.message = "Invalid unary operator." ∨ e.message = "Invalid binary operator."

/-- What is to hold of the functions that there are, of how many have been made, and of errors. -/
structure Terms where
  function : Closure → Prop
  count : Nat → Prop
  error : RuntimeError → Prop
  /-- No errors but those of unknown operators may be ruled out. -/
  lenient : ∀ e, ¬e.BlamesOperator → error e

namespace Terms

variable {T : Terms}

def Allows (T : Terms) : Value → Prop
  | .function f => T.function f
  | .native f => ∀ t now arguments message, f.func now arguments = .error message →
    T.error (.atToken t (.native message))
  | _ => True

structure Holds (T : Terms) (m : Machine) : Prop where
  stored : ∀ a x v, m.store.readTable a x = some v → T.Allows v
  count : T.count m.nextFunction

def Tolerates (T : Terms) : Signal → Prop
  | .returned v => T.Allows v
  | .runtime e => T.error e
  | _ => True

def Ends {α : Type} (T : Terms) (P : α → Prop) : EStateM.Result Signal Machine α → Prop
  | .ok x m => P x ∧ T.Holds m
  | .error signal m => T.Tolerates signal ∧ T.Holds m

def Keeps {α : Type} (T : Terms) (P : α → Prop) (a : Run α) : Prop := ∀ m, T.Holds m → T.Ends P (a m)

/-- A message that begins with another letter is another message. -/
theorem error_of_head (T : Terms) {t : Token} {cause : RuntimeError.Cause} (first : Char)
    (h : cause.message.toList.head? = some first) (hne : first ≠ 'I') :
    T.error (RuntimeError.atToken t cause) := by
  apply T.lenient
  rintro (hunary | hbinary)
  · have hmessage : cause.message = "Invalid unary operator." := hunary
    rw [hmessage] at h
    exact hne (Option.some.inj h).symm
  · have hmessage : cause.message = "Invalid binary operator." := hbinary
    rw [hmessage] at h
    exact hne (Option.some.inj h).symm

theorem head?_toList_append {s : String} {first : Char} (h : s.toList.head? = some first)
    (t : String) : (s ++ t).toList.head? = some first := by
  rw [String.toList_append, List.head?_append, h, Option.some_or]

theorem error_undefined (T : Terms) (name : Token) : T.error (.undefined name) := by
  have hhead : "Undefined variable '".toList.head? = some 'U' := rfl
  exact T.error_of_head _ (head?_toList_append (head?_toList_append hhead _) _) (by decide)

theorem error_wrongArity (T : Terms) (t : Token) (expected got : Nat) :
    T.error (.atToken t (.wrongArity expected got)) := by
  have hhead : "Expected ".toList.head? = some 'E' := rfl
  have hmessage := head?_toList_append (head?_toList_append hhead (toString expected)) " arguments but got "
  exact T.error_of_head _ (head?_toList_append (head?_toList_append hmessage _) _) (by decide)

theorem error_operandNotNumber (T : Terms) (t : Token) : T.error (.atToken t .operandNotNumber) :=
  T.error_of_head 'O' rfl (by decide)

theorem error_operandsNotNumbers (T : Terms) (t : Token) :
    T.error (.atToken t .operandsNotNumbers) := T.error_of_head 'O' rfl (by decide)

theorem error_notCallable (T : Terms) (t : Token) : T.error (.atToken t .notCallable) :=
  T.error_of_head 'C' rfl (by decide)

theorem allows_ofLiteral (T : Terms) (l : Literal) : T.Allows (.ofLiteral l) := by
  cases l <;> trivial

/-- The clock blames nothing but itself. -/
theorem allows_clock (T : Terms) : T.Allows (.native Machine.clockFunction) := by
  intro t now arguments message h
  cases now with
  | ok seconds => cases h
  | error reason =>
    cases h
    have hhead : "Clock error: ".toList.head? = some 'C' := rfl
    exact T.error_of_head _ (head?_toList_append hhead reason) (by decide)

/-- On a machine that has run nothing there is no function of a program, but only the clock. -/
theorem holds_start (output : Stream) (clock : Clock) (hcount : T.count 0) :
    T.Holds (Machine.start output clock) where
  stored a x v hread := by
    rcases Store.readTable_of_define hread with rfl | hread
    · exact T.allows_clock
    · rw [Store.readTable_addTable, Store.readTable_empty] at hread
      cases hread
  count := hcount

section

variable {α β : Type} {P : α → Prop} {Q : β → Prop} {a b : Run α} {f : α → Run β} {m : Machine}

theorem Holds.enter (h : T.Holds m) (outer : Environment) : T.Holds (m.enter outer) where
  stored address x v hread := by
    rw [Machine.enter, Store.readTable_addTable] at hread
    exact h.stored address x v hread
  count := h.count

theorem Ends.inNewScope {outer : Environment} (h : T.Ends P (a (m.enter outer))) :
    T.Ends P (Run.inNewScope outer a m) := by
  rw [Cuts.inNewScope_apply]
  cases hcase : a (m.enter outer) with
  | ok x m₁ =>
    rw [hcase] at h
    exact ⟨h.1, h.2.stored, h.2.count⟩
  | error signal m₁ =>
    rw [hcase] at h
    exact ⟨h.1, h.2.stored, h.2.count⟩

theorem Ends.catchReturn {body : Run Unit} (h : T.Ends (fun _ => True) (body m)) :
    T.Ends T.Allows (Run.catchReturn body m) := by
  simp only [Run.catchReturn]
  cases hcase : body m with
  | ok u m₁ =>
    rw [hcase] at h
    exact ⟨trivial, h.2⟩
  | error signal m₁ =>
    rw [hcase] at h
    cases signal <;> exact h

theorem Ends.holds {r : EStateM.Result Signal Machine α} (h : T.Ends P r) : T.Holds (reached r) := by
  cases r with
  | ok x m => exact h.2
  | error signal m => exact h.2

/-- Steps that keep the terms may be put one after the other. -/
theorem Keeps.bind (ha : T.Keeps P a) (hf : ∀ x, P x → T.Keeps Q (f x)) :
    T.Keeps Q (a >>= f) := by
  intro m hm
  have hfirst := ha m hm
  cases hcase : a m with
  | error signal m₁ =>
    rw [hcase] at hfirst
    rw [bind_of_error hcase]
    exact hfirst
  | ok x m₁ =>
    rw [hcase] at hfirst
    rw [bind_of_ok hcase]
    exact hf x hfirst.1 m₁ hfirst.2

theorem Keeps.ite {c : Prop} [Decidable c] (ha : T.Keeps P a) (hb : T.Keeps P b) :
    T.Keeps P (if c then a else b) := by
  split
  · exact ha
  · exact hb

theorem Keeps.inNewScope (h : T.Keeps P a) (outer : Environment) :
    T.Keeps P (Run.inNewScope outer a) := fun m hm => (h (m.enter outer) (hm.enter outer)).inNewScope

theorem Keeps.catchReturn {body : Run Unit} (h : T.Keeps (fun _ => True) body) :
    T.Keeps T.Allows (Run.catchReturn body) := fun m hm => (h m hm).catchReturn

end

section

variable {α : Type} {P : α → Prop} {v : Value}

theorem keeps_pure {x : α} (h : P x) : T.Keeps P (pure x) := fun _ hm => ⟨h, hm⟩

theorem keeps_throw {signal : Signal} (h : T.Tolerates signal) :
    T.Keeps P (throw signal : Run α) := fun _ hm => ⟨h, hm⟩

theorem keeps_stop {t : Token} {cause : RuntimeError.Cause} (h : T.error (.atToken t cause)) :
    T.Keeps P (Run.stop t cause) := keeps_throw h

theorem keeps_exhausted : T.Keeps P (throw .exhausted : Run α) := keeps_throw trivial

theorem keeps_get : T.Keeps (fun _ => True) (get : Run Machine) := fun _ hm => ⟨trivial, hm⟩

theorem keeps_locate (id : ReferenceId) (name : Token) :
    T.Keeps (fun _ => True) (Run.locate id name) := by
  intro m hm
  simp only [Run.locate]
  split
  · exact ⟨trivial, hm⟩
  · exact ⟨T.error_undefined name, hm⟩

theorem keeps_read (id : ReferenceId) (name : Token) : T.Keeps T.Allows (Run.read id name) := by
  refine (keeps_locate id name).bind fun address _ m hm => ?_
  rw [bind_of_ok (show (get : Run Machine) m = .ok m m from rfl)]
  cases hread : m.store.readTable address name.lexeme with
  | some v => exact ⟨hm.stored address name.lexeme v hread, hm⟩
  | none => exact ⟨T.error_undefined name, hm⟩

theorem keeps_assign (id : ReferenceId) (name : Token) (hv : T.Allows v) :
    T.Keeps (fun _ => True) (Run.assign id name v) := by
  refine (keeps_locate id name).bind fun address _ m hm => ⟨trivial, fun a x w hread => ?_, hm.count⟩
  rcases Store.readTable_of_writeTable hread with rfl | hread
  · exact hv
  · exact hm.stored a x w hread

theorem keeps_define (x : String) (hv : T.Allows v) :
    T.Keeps (fun _ => True) (Run.define x v) := by
  refine fun m hm => ⟨trivial, fun a y w hread => ?_, hm.count⟩
  rcases Store.readTable_of_define hread with rfl | hread
  · exact hv
  · exact hm.stored a y w hread

theorem keeps_print (text : String) : T.Keeps (fun _ => True) (Run.print text) := by
  intro m hm
  simp only [Run.print]
  split
  · exact ⟨trivial, hm.stored, hm.count⟩
  · exact ⟨trivial, hm.stored, hm.count⟩

theorem keeps_readClock : T.Keeps (fun _ => True) Run.readClock :=
  fun _ hm => ⟨trivial, hm.stored, hm.count⟩

theorem keeps_orStop {t : Token} {result : Except RuntimeError.Cause α}
    (hok : ∀ x, result = .ok x → P x)
    (herror : ∀ cause, result = .error cause → T.error (.atToken t cause)) :
    T.Keeps P (Run.orStop t result) := by
  cases result with
  | ok x => exact keeps_pure (hok x rfl)
  | error cause => exact keeps_stop (herror cause rfl)

/-- The sign is known, or the terms do not rule out the error of an unknown one. -/
theorem keeps_unaryResult {operator : Token}
    (h : operator.kind = .symbol .bang ∨ operator.kind = .symbol .minus ∨
      T.error (.atToken operator .invalidUnaryOperator)) (right : Value) :
    T.Keeps T.Allows (Run.orStop operator (unaryResult operator.kind right)) := by
  refine keeps_orStop (fun v hv => ?_) fun cause hcause => ?_
  · obtain ⟨l, rfl⟩ := isPlain_of_unaryResult hv
    exact T.allows_ofLiteral l
  · rcases unaryResult_eq_error hcause with rfl | ⟨rfl, hminus, hbang⟩
    · exact T.error_operandNotNumber operator
    · exact (h.resolve_left hbang).resolve_left hminus

/-- The operator is known, or the terms do not rule out the error of an unknown one. -/
theorem keeps_binaryResult {operator : Token}
    (h : (∃ s ∈ binaryOperators, operator.kind = .symbol s) ∨
      T.error (.atToken operator .invalidBinaryOperator)) (left right : Value) :
    T.Keeps T.Allows (Run.orStop operator (binaryResult operator.kind left right)) := by
  refine keeps_orStop (fun v hv => ?_) fun cause hcause => ?_
  · obtain ⟨l, rfl⟩ := isPlain_of_binaryResult hv
    exact T.allows_ofLiteral l
  · rcases binaryResult_eq_error hcause with rfl | ⟨rfl, hunknown⟩
    · exact T.error_operandsNotNumbers operator
    · refine h.resolve_left ?_
      rintro ⟨s, hs, hkind⟩
      exact hunknown s hs hkind

theorem keeps_checkArity (paren : Token) (expected got : Nat) :
    T.Keeps (fun _ => True) (Run.orStop paren (checkArity expected got)) := by
  refine keeps_orStop (fun _ _ => trivial) fun cause hcause => ?_
  rw [checkArity_eq_error hcause]
  exact T.error_wrongArity paren expected got

theorem keeps_bindArguments (params : List Token) {vs : List Value} (hvs : ∀ v ∈ vs, T.Allows v) :
    T.Keeps (fun _ => True) (Run.bindArguments params vs) := by
  induction params generalizing vs with
  | nil => cases vs <;> exact keeps_pure trivial
  | cons p ps ih =>
    cases vs with
    | nil => exact keeps_pure trivial
    | cons v vs =>
      obtain ⟨hv, hvs⟩ := List.forall_mem_cons.mp hvs
      exact (keeps_define p.lexeme hv).bind fun _ _ => ih hvs

/-- A native function keeps the terms: its errors are allowed, and a function that it gives is an argument.
-/
theorem keeps_callNative (paren : Token) {f : NativeFunction} (hf : T.Allows (.native f))
    {vs : List Value} (hvs : ∀ v ∈ vs, T.Allows v) :
    T.Keeps T.Allows (Run.callNative paren f vs) := by
  refine (keeps_checkArity paren f.arity vs.length).bind fun _ _ => ?_
  refine keeps_readClock.bind fun now _ => keeps_orStop (fun v hv => ?_) fun cause hcause => ?_
  · rcases isPlain_or_mem_of_result hv with ⟨l, rfl⟩ | hmem
    · exact T.allows_ofLiteral l
    · exact hvs v hmem
  · obtain ⟨message, rfl, hfailed⟩ := result_eq_error hcause
    exact hf paren now _ message hfailed

end

end Terms

end LoxLang
