import Mathlib.Data.List.Forall2
import LoxLang.Operators
import LoxLang.Proofs.Tree.WellFormed

/-!
Values of two semantics side by side. Values are alike if they are the same but for their functions,
which are related in some way; what programs make of values that are alike is alike again. Operators
and native functions make no functions of programs.
-/
namespace LoxLang

namespace ValueOf

variable {F G : Type}

inductive Alike (R : F → G → Prop) : ValueOf F → ValueOf G → Prop
  | nil : Alike R .nil .nil
  | bool (b : Bool) : Alike R (.bool b) (.bool b)
  | number (x : Float) : Alike R (.number x) (.number x)
  | string (s : String) : Alike R (.string s) (.string s)
  | function {f : F} {g : G} (h : R f g) : Alike R (.function f) (.function g)
  | native (f : NativeFunction) : Alike R (.native f) (.native f)

def map (h : F → G) : ValueOf F → ValueOf G
  | nil => nil
  | bool b => bool b
  | number x => number x
  | string s => string s
  | function f => function (h f)
  | native f => native f

inductive ResultAlike (R : F → G → Prop) :
    Except RuntimeError.Cause (ValueOf F) → Except RuntimeError.Cause (ValueOf G) → Prop
  | ok {v : ValueOf F} {w : ValueOf G} (h : Alike R v w) : ResultAlike R (.ok v) (.ok w)
  | error (cause : RuntimeError.Cause) : ResultAlike R (.error cause) (.error cause)

end ValueOf

open ValueOf

/-- Programs cannot tell related functions apart. -/
structure Lookalike {F G : Type} [Callable F] [Callable G] (R : F → G → Prop) : Prop where
  identity : ∀ {f g}, R f g → Callable.identity f = Callable.identity g
  name : ∀ {f g}, R f g → Callable.name f = Callable.name g

section

variable {F G : Type} {R S : F → G → Prop} {v v' : ValueOf F} {w w' : ValueOf G}
  {vs : List (ValueOf F)} {ws : List (ValueOf G)}

theorem ValueOf.Alike.mono (h : Alike R v w) (le : ∀ {f g}, R f g → S f g) : Alike S v w := by
  cases h with
  | function hfg => exact .function (le hfg)
  | nil => exact .nil
  | bool b => exact .bool b
  | number x => exact .number x
  | string s => exact .string s
  | native f => exact .native f

theorem alike_ofLiteral (value : Literal) : Alike R (.ofLiteral value) (.ofLiteral value) := by
  cases value with
  | nil => exact .nil
  | bool b => exact .bool b
  | number x => exact .number x
  | string s => exact .string s

theorem ValueOf.Alike.isTruthy_eq (h : Alike R v w) : v.isTruthy = w.isTruthy := by cases h <;> rfl

theorem ValueOf.Alike.literal?_eq (h : Alike R v w) : v.literal? = w.literal? := by cases h <;> rfl

theorem literal?_map_eq (h : List.Forall₂ (Alike R) vs ws) :
    vs.map ValueOf.literal? = ws.map ValueOf.literal? := by
  induction h with
  | nil => rfl
  | cons hfirst _ ih => rw [List.map_cons, List.map_cons, hfirst.literal?_eq, ih]

theorem alike_argument (h : List.Forall₂ (Alike R) vs ws) (place : Nat) :
    Alike R (vs[place]?.getD .nil) (ws[place]?.getD .nil) := by
  induction h generalizing place with
  | nil => exact .nil
  | cons hfirst _ ih =>
    cases place with
    | zero => exact hfirst
    | succ place => exact ih place

/-- What a native function gives does not depend on the functions among its arguments, which it may
hand on. -/
theorem resultAlike_native (f : NativeFunction) (now : Except String Float)
    (h : List.Forall₂ (Alike R) vs ws) : ResultAlike R (f.result now vs) (f.result now ws) := by
  unfold NativeFunction.result
  rw [literal?_map_eq h]
  split
  · exact .ok (alike_ofLiteral _)
  · exact .ok (alike_argument h _)
  · exact .error _

/-- An operator in front cannot tell values apart that are alike. -/
theorem resultAlike_unaryResult (operator : TokenKind) (h : Alike R v w) :
    ResultAlike R (unaryResult operator v) (unaryResult operator w) := by
  have htruthy := h.isTruthy_eq
  unfold unaryResult
  cases operator with
  | symbol mark =>
    cases mark
    case minus =>
      cases h with
      | number x => exact .ok (.number (-x))
      | _ => exact .error .operandNotNumber
    case bang =>
      simp only [htruthy]
      exact .ok (.bool _)
    all_goals exact .error .invalidUnaryOperator
  | _ => exact .error .invalidUnaryOperator

theorem resultAlike_onNumbers (h : Alike R v w) (h' : Alike R v' w')
    {op : Float → Float → ValueOf F} {op' : Float → Float → ValueOf G}
    (hop : ∀ x y, Alike R (op x y) (op' x y)) :
    ResultAlike R (onNumbers v v' op) (onNumbers w w' op') := by
  cases h with
  | number x =>
    cases h' with
    | number y => exact .ok (hop x y)
    | _ => exact .error .operandsNotNumbers
  | _ => exact .error .operandsNotNumbers

/-- Numbers are added and strings joined alike on both sides. -/
theorem resultAlike_plusResult (h : Alike R v w) (h' : Alike R v' w') :
    ResultAlike R (plusResult v v') (plusResult w w') := by
  have hnumbers := resultAlike_onNumbers h h' fun x y => Alike.number (x + y)
  cases h with
  | string s =>
    cases h' with
    | string t => exact .ok (.string (s ++ t))
    | _ => exact hnumbers
  | _ => exact hnumbers

theorem decides_eq (operator : TokenKind) (h : Alike R v w) :
    decides operator v = decides operator w := by
  have htruthy := h.isTruthy_eq
  unfold decides
  generalize v.isTruthy = b at htruthy ⊢
  subst htruthy
  rfl

variable [Callable F] [Callable G] (hR : Lookalike R)

include hR

theorem ValueOf.Alike.text_eq (h : Alike R v w) : v.text = w.text := by
  cases h with
  | bool b => cases b <;> rfl
  | function hfg => rw [ValueOf.text, ValueOf.text, hR.name hfg]
  | _ => rfl

theorem ValueOf.Alike.same_eq (h : Alike R v w) (h' : Alike R v' w') : v.same v' = w.same w' := by
  cases h with
  | function hfg =>
    cases h' with
    | function hfg' => rw [ValueOf.same, ValueOf.same, hR.identity hfg, hR.identity hfg']
    | _ => rfl
  | _ => cases h' <;> rfl

/-- Only `==` and `!=` look at functions, and they look at nothing but their identities. -/
theorem resultAlike_binaryResult (operator : TokenKind) (h : Alike R v w) (h' : Alike R v' w') :
    ResultAlike R (binaryResult operator v v') (binaryResult operator w w') := by
  have hsame := h.same_eq hR h'
  unfold binaryResult
  cases operator with
  | symbol mark =>
    cases mark
    case plus => exact resultAlike_plusResult h h'
    case minus | star | slash => exact resultAlike_onNumbers h h' fun x y => .number _
    case greater | greaterEqual | less | lessEqual =>
      exact resultAlike_onNumbers h h' fun x y => .bool _
    case equalEqual | bangEqual =>
      simp only [hsame]
      exact .ok (.bool _)
    all_goals exact .error .invalidBinaryOperator
  | _ => exact .error .invalidBinaryOperator

end

section

variable {F G : Type} (h : F → G) (v w : ValueOf F) {u : ValueOf G}

/-- Values are alike along a function of their closures if one is the image of the other. -/
theorem alike_map_iff : Alike (fun f g => h f = g) v u ↔ v.map h = u := by
  constructor
  · rintro (_ | _ | _ | _ | hfg | _)
    case function => exact congrArg ValueOf.function hfg
    all_goals rfl
  · rintro rfl
    cases v with
    | function f => exact .function rfl
    | nil => exact .nil
    | bool b => exact .bool b
    | number x => exact .number x
    | string s => exact .string s
    | native f => exact .native f

theorem alike_map : Alike (fun f g => h f = g) v (v.map h) := (alike_map_iff h v).mpr rfl

theorem forall₂_alike_map (vs : List (ValueOf F)) :
    List.Forall₂ (Alike fun f g => h f = g) vs (vs.map (ValueOf.map h)) := by
  induction vs with
  | nil => exact .nil
  | cons v vs ih => exact .cons (alike_map h v) ih

theorem resultAlike_map_iff {r : Except RuntimeError.Cause (ValueOf F)}
    {r' : Except RuntimeError.Cause (ValueOf G)} :
    ResultAlike (fun f g => h f = g) r r' ↔ r' = r.map (ValueOf.map h) := by
  constructor
  · rintro (halike | _)
    · exact congrArg Except.ok ((alike_map_iff h _).mp halike).symm
    · rfl
  · rintro rfl
    cases r with
    | ok v => exact .ok (alike_map h v)
    | error cause => exact .error cause

theorem map_map {H : Type} (k : G → H) : (v.map h).map k = v.map (k ∘ h) := by cases v <;> rfl

theorem map_id : v.map id = v := by cases v <;> rfl

@[simp] theorem isTruthy_map : (v.map h).isTruthy = v.isTruthy := (alike_map h v).isTruthy_eq.symm

@[simp] theorem map_ofLiteral (value : Literal) :
    (ValueOf.ofLiteral value).map h = .ofLiteral value :=
  (alike_map_iff h _).mp (alike_ofLiteral value)

theorem decides_map (operator : TokenKind) : decides operator (v.map h) = decides operator v :=
  (decides_eq operator (alike_map h v)).symm

theorem unaryResult_map (operator : TokenKind) :
    unaryResult operator (v.map h) = (unaryResult operator v).map (ValueOf.map h) :=
  (resultAlike_map_iff h).mp (resultAlike_unaryResult operator (alike_map h v))

theorem result_map (f : NativeFunction) (now : Except String Float) (vs : List (ValueOf F)) :
    f.result now (vs.map (ValueOf.map h)) = (f.result now vs).map (ValueOf.map h) :=
  (resultAlike_map_iff h).mp (resultAlike_native f now (forall₂_alike_map h vs))

variable [Callable F] [Callable G] (hlook : Lookalike fun f g => h f = g)

include hlook

theorem text_map : (v.map h).text = v.text := ((alike_map h v).text_eq hlook).symm

theorem binaryResult_map (operator : TokenKind) :
    binaryResult operator (v.map h) (w.map h) = (binaryResult operator v w).map (ValueOf.map h) :=
  (resultAlike_map_iff h).mp
    (resultAlike_binaryResult hlook operator (alike_map h v) (alike_map h w))

end

section

variable {F : Type} {operator : TokenKind} {v w u : ValueOf F} {cause : RuntimeError.Cause}

/-- The results of operators are plain data. -/
theorem isPlain_of_unaryResult (h : unaryResult operator v = .ok u) : ∃ l, u = .ofLiteral l := by
  unfold unaryResult at h
  split at h <;> cases h
  · exact ⟨.number _, rfl⟩
  · exact ⟨.bool _, rfl⟩

theorem isPlain_of_onNumbers {op : Float → Float → ValueOf F} (hop : ∀ x y, ∃ l, op x y = .ofLiteral l)
    (h : onNumbers v w op = .ok u) : ∃ l, u = .ofLiteral l := by
  unfold onNumbers at h
  split at h <;> cases h
  exact hop _ _

theorem isPlain_of_plusResult (h : plusResult v w = .ok u) : ∃ l, u = .ofLiteral l := by
  unfold plusResult at h
  split at h
  · cases h
    exact ⟨.string _, rfl⟩
  · exact isPlain_of_onNumbers (fun x y => ⟨.number (x + y), rfl⟩) h

/-- An operator between two values gives a literal. -/
theorem isPlain_of_binaryResult [Callable F] (h : binaryResult operator v w = .ok u) :
    ∃ l, u = .ofLiteral l := by
  unfold binaryResult at h
  split at h
  case h_1 => exact isPlain_of_plusResult h
  case h_2 | h_3 | h_4 => exact isPlain_of_onNumbers (fun x y => ⟨.number _, rfl⟩) h
  case h_5 | h_6 | h_7 | h_8 => exact isPlain_of_onNumbers (fun x y => ⟨.bool _, rfl⟩) h
  case h_9 | h_10 =>
    cases h
    exact ⟨.bool _, rfl⟩
  case h_11 => cases h

/-- A native function gives plain data, or it hands on one of its arguments. -/
theorem isPlain_or_mem_of_result {f : NativeFunction} {now : Except String Float}
    {vs : List (ValueOf F)} (h : f.result now vs = .ok u) : (∃ l, u = .ofLiteral l) ∨ u ∈ vs := by
  unfold NativeFunction.result at h
  split at h <;> cases h
  · exact .inl ⟨_, rfl⟩
  · next place _ =>
    cases hplace : vs[place]? with
    | none => exact .inl ⟨.nil, rfl⟩
    | some v => exact .inr (List.mem_of_getElem? hplace)

theorem result_eq_error {f : NativeFunction} {now : Except String Float} {vs : List (ValueOf F)}
    (h : f.result now vs = .error cause) : ∃ message, cause = .native message ∧
      f.func now (vs.map ValueOf.literal?) = .error message := by
  unfold NativeFunction.result at h
  split at h <;> cases h
  exact ⟨_, rfl, ‹_›⟩

/-- An operator is blamed only if it is no operator with one operand. -/
theorem unaryResult_eq_error (h : unaryResult operator v = .error cause) :
    cause = .operandNotNumber ∨ cause = .invalidUnaryOperator ∧
      operator ≠ .symbol .minus ∧ operator ≠ .symbol .bang := by
  unfold unaryResult at h
  split at h <;> cases h
  · exact .inl rfl
  · next hminus hbang _ => exact .inr ⟨rfl, hminus, hbang⟩

theorem onNumbers_eq_error {op : Float → Float → ValueOf F} (h : onNumbers v w op = .error cause) :
    cause = .operandsNotNumbers := by
  unfold onNumbers at h
  split at h <;> cases h
  rfl

theorem plusResult_eq_error (h : plusResult v w = .error cause) : cause = .operandsNotNumbers := by
  unfold plusResult at h
  split at h
  · cases h
  · exact onNumbers_eq_error h

/-- An operator is blamed only if it is no operator with two operands. -/
theorem binaryResult_eq_error [Callable F] (h : binaryResult operator v w = .error cause) :
    cause = .operandsNotNumbers ∨ cause = .invalidBinaryOperator ∧
      ∀ s ∈ binaryOperators, operator ≠ .symbol s := by
  unfold binaryResult at h
  split at h
  case h_1 => exact .inl (plusResult_eq_error h)
  case h_9 | h_10 => cases h
  case h_11 =>
    cases h
    refine .inr ⟨rfl, fun s hs hsymbol => ?_⟩
    cases s <;> simp_all [binaryOperators]
  all_goals exact .inl (onNumbers_eq_error h)

theorem checkArity_eq_ok_iff {expected got : Nat} {u : Unit} :
    checkArity expected got = .ok u ↔ expected = got := by
  unfold checkArity
  split
  · next h => exact ⟨fun _ => h, fun _ => rfl⟩
  · next h => exact ⟨nofun, fun heq => absurd heq h⟩

theorem checkArity_eq_error {expected got : Nat} (h : checkArity expected got = .error cause) :
    cause = .wrongArity expected got := by
  unfold checkArity at h
  split at h <;> cases h
  rfl

end

end LoxLang
