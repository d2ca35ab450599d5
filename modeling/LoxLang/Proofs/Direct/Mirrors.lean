import LoxLang.Proofs.Direct.Evaluation
import LoxLang.Proofs.Running.Lines

/-!
Programs as they are written have the same kinds of values and states as the reference, but for the
bodies of functions, which the reference keeps as they are read, and for the output. A step that does
not look at either mirrors a step of the reference.
-/
namespace LoxLang.Direct

open Lexical (Location Names Env)

def Closure.toLexical (f : Closure) : Lexical.Closure :=
  ⟨f.identity, ⟨f.name, f.params, parsedAll f.body⟩, f.names⟩

abbrev Value.toLexical : Value → Lexical.Value := ValueOf.map Closure.toLexical

def State.toLexical (s : State) : Lexical.State where
  globals := s.globals.map Value.toLexical
  locations := s.locations.map (Option.map Value.toLexical)
  nextFunction := s.nextFunction
  output := ByteArray.empty
  clock := s.clock
  readings := s.readings

theorem lookalike_toLexical : Lookalike fun f f' => Closure.toLexical f = f' where
  identity h := by
    subst h
    rfl
  name h := by
    subst h
    rfl

section

variable (v : Value) (s : State) (names : Names) (x : String) (l : Location)

theorem toLexical_setGlobal :
    (s.setGlobal x v).toLexical = s.toLexical.setGlobal x v.toLexical := by
  simp [State.toLexical, State.setGlobal, Lexical.State.setGlobal, Bindings.insert_map]

theorem toLexical_setLocation :
    (s.setLocation l v).toLexical = s.toLexical.setLocation l v.toLexical := by
  simp [State.toLexical, State.setLocation, Lexical.State.setLocation, List.map_set]

theorem toLexical_take : s.take.toLexical = s.toLexical.take := by
  simp [State.toLexical, State.take, Lexical.State.take]

theorem length_locations_toLexical : s.toLexical.locations.length = s.locations.length :=
  List.length_map ..

/-- Looking up a name gives the same value on both sides. -/
theorem read?_toLexical :
    s.toLexical.read? (.inside names) x = (s.read? names x).map Value.toLexical := by
  unfold Lexical.State.read? State.read?
  simp only [Env.names]
  cases names.find? x with
  | none => exact Bindings.find?_map ..
  | some l =>
    have hlocation : s.toLexical.locations[l]? = s.locations[l]?.map (Option.map Value.toLexical) :=
      List.getElem?_map
    simp only [Lexical.State.valueAt?, hlocation]
    cases s.locations[l]? <;> rfl

theorem toLexical_write :
    (s.write names x v).toLexical = s.toLexical.write (.inside names) x v.toLexical := by
  unfold Lexical.State.write State.write
  simp only [Env.names]
  cases names.find? x with
  | none => exact toLexical_setGlobal v s x
  | some l => exact toLexical_setLocation v s l

theorem output_write : (s.write names x v).output = s.output := by
  unfold State.write
  split <;> rfl

end

section

variable {α β γ δ : Type} {f : α → γ} {g : β → δ}

inductive Mirrored (output : Stream) (f : α → γ) :
    EStateM.Result Signal State α → EStateM.Result Lexical.Signal Lexical.State γ → Prop
  | ok {a : α} {s : State} (h : s.output = output) :
      Mirrored output f (.ok a s) (.ok (f a) s.toLexical)
  | stopped {e : RuntimeError} {s : State} (h : s.output = output) :
      Mirrored output f (.error (.runtime e) s) (.error (.runtime e) s.toLexical)

/-- The step writes nothing, and does what the step of the reference does. -/
def Mirrors (f : α → γ) (p : Eval α) (p' : Lexical.Eval γ) : Prop :=
  ∀ s, Mirrored s.output f (p s) (p' s.toLexical)

theorem mirrors_pure (a : α) : Mirrors f (pure a) (pure (f a)) := fun _ => .ok rfl

theorem mirrors_stop (t : Token) (cause : RuntimeError.Cause) :
    Mirrors f (stop t cause) (Lexical.stop t cause) := fun _ => .stopped rfl

/-- Steps that mirror each other may be put one after the other. -/
theorem Mirrors.bind {p : Eval α} {p' : Lexical.Eval γ} {k : α → Eval β} {k' : γ → Lexical.Eval δ}
    (hp : Mirrors f p p') (hk : ∀ a, Mirrors g (k a) (k' (f a))) :
    Mirrors g (p >>= k) (p' >>= k') := by
  intro s
  have h := hp s
  simp only [Bind.bind, EStateM.bind]
  generalize p s = x at h ⊢
  generalize p' s.toLexical = y at h ⊢
  cases h with
  | ok h => exact h ▸ hk _ _
  | stopped h => exact .stopped h

theorem mirrors_orStop (t : Token) {result : Except RuntimeError.Cause α}
    {result' : Except RuntimeError.Cause γ} (h : result' = result.map f) :
    Mirrors f (orStop t result) (Lexical.orStop t result') := by
  subst h
  cases result with
  | ok a => exact mirrors_pure a
  | error cause => exact mirrors_stop t cause

end

theorem mirrors_read (names : Names) (name : Token) :
    Mirrors Value.toLexical (read names name) (Lexical.read (.inside names) name) := by
  intro s
  unfold read Lexical.read
  rw [read?_toLexical]
  cases s.read? names name.lexeme with
  | none => exact .stopped rfl
  | some v => exact .ok rfl

theorem mirrors_assign (names : Names) (name : Token) (v : Value) :
    Mirrors id (assign names name v) (Lexical.assign (.inside names) name v.toLexical) := by
  intro s
  unfold assign Lexical.assign
  rw [read?_toLexical, Option.isSome_map, ← toLexical_write]
  split
  · exact .ok (output_write v s names name.lexeme)
  · exact .stopped rfl

theorem mirrors_makeClosure (name : Token) (params : List Token) (body : List Declaration)
    (names : Names) :
    Mirrors Value.toLexical (makeClosure name params body names)
      (Lexical.makeClosure ⟨name, params, parsedAll body⟩ (.inside names)) :=
  fun _ => .ok rfl

theorem mirrors_readClock : Mirrors id readClock Lexical.readClock := fun _ => .ok rfl

theorem mirrors_checkArity (paren : Token) (expected got : Nat) :
    Mirrors id (orStop paren (checkArity expected got))
      (Lexical.orStop paren (checkArity expected got)) :=
  mirrors_orStop paren (by cases checkArity expected got <;> rfl)

theorem mirrors_callNative (paren : Token) (f : NativeFunction) (arguments : List Value) :
    Mirrors Value.toLexical (callNative paren f arguments)
      (Lexical.callNative paren f (arguments.map Value.toLexical)) := by
  unfold callNative Lexical.callNative
  rw [List.length_map]
  refine (mirrors_checkArity paren _ _).bind fun _ => mirrors_readClock.bind fun now => ?_
  exact mirrors_orStop paren (result_map _ f now arguments)

end LoxLang.Direct
