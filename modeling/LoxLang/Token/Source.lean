import LoxLang.Diagnostic
import LoxLang.Token.Element

/-!
Reading a program text item by item. An item is a token or a lexical error; blanks are passed
over. Every character belongs to one element, an item's line counts the newlines up to the end of its
own text, and the last item is the end-of-input token.
-/
namespace LoxLang

inductive LexicalError.Cause
  | unterminatedString
  | unrecognized (c : Char)
  deriving DecidableEq, Repr

def LexicalError.Cause.message : LexicalError.Cause → String
  | unterminatedString => "Unterminated string."
  | unrecognized c => "Unrecognized character: " ++ String.singleton c

structure LexicalError where
  line : Nat
  cause : LexicalError.Cause
  deriving DecidableEq, Repr

def LexicalError.diagnostic (e : LexicalError) : Diagnostic := .lexical e.line e.cause.message

inductive Item
  | token (t : Token)
  | error (e : LexicalError)

structure Source where
  rest : List Char
  line : Nat
  ended : Bool

namespace Source

def ofString (text : String) : Source := ⟨text.toList, 1, false⟩

def item? (line : Nat) (p : Piece) : Option Item :=
  match p.element with
  | .blank => none
  | .token kind => some (.token ⟨kind, String.ofList p.text, line⟩)
  | .unterminatedString => some (.error ⟨line, .unterminatedString⟩)
  | .unrecognized c => some (.error ⟨line, .unrecognized c⟩)

def advance (line : Nat) : List Char → Item × Source
  | [] => (.token ⟨.eof, "", line⟩, ⟨[], line, true⟩)
  | c :: cs =>
    let p := Piece.first c cs
    -- an item stands on the line on which its text ends
    let line := line + p.text.count '\n'
    match item? line p with
    | some item => (item, ⟨p.rest, line, false⟩)
    | none => advance line p.rest
termination_by cs => cs.length
decreasing_by exact Piece.length_rest_first_lt c cs

def next? (s : Source) : Option (Item × Source) :=
  if s.ended then none else some (advance s.line s.rest)

def remaining (s : Source) : Nat := if s.ended then 0 else s.rest.length + 1

/-- An item leaves less than there was. -/
theorem remaining_advance (line : Nat) (cs : List Char) :
    (advance line cs).2.remaining < cs.length + 1 := by
  fun_induction advance line cs with
  | case1 => simp [remaining]
  | case2 line c cs p line' item h =>
    have := Piece.length_rest_first_lt c cs
    simp [remaining, p] at this ⊢
    omega
  | case3 line c cs p line' h ih =>
    have := Piece.length_rest_first_lt c cs
    simp only [p] at ih ⊢
    omega

/-- Each item leaves less to be given. -/
theorem remaining_next? {s s' : Source} {item : Item} (h : s.next? = some (item, s')) :
    s'.remaining < s.remaining := by
  unfold next? at h
  split at h
  · cases h
  · rename_i hs
    have lt := remaining_advance s.line s.rest
    have : advance s.line s.rest = (item, s') := Option.some.inj h
    rw [this] at lt
    simpa [remaining, hs] using lt

def items (s : Source) : List Item :=
  match _h : s.next? with
  | none => []
  | some (item, s') => item :: items s'
termination_by s.remaining
decreasing_by exact remaining_next? ‹_›

end Source

def scan (text : String) : List Item := (Source.ofString text).items

namespace Item

def token? : Item → Option Token
  | token t => some t
  | error _ => none

def error? : Item → Option LexicalError
  | token _ => none
  | error e => some e

end Item

end LoxLang
