import LoxLang.Token

/-!
The lexical elements of a program text. Every nonempty text starts with exactly one element, the
longest that fits; `Piece.first` splits it off. The element's text and the rest are the whole text,
and the element's text is not empty.
-/
namespace LoxLang

inductive Element
  | blank
  | token (kind : TokenKind)
  /-- A quote with no other quote after it. -/
  | unterminatedString
  | unrecognized (c : Char)

structure Piece where
  element : Element
  text : List Char
  rest : List Char

namespace Piece

def isNameStart (c : Char) : Bool := c.isAlpha || c == '_'

def isNamePart (c : Char) : Bool := c.isAlphanum || c == '_'

def isBlank (c : Char) : Bool := c == ' ' || c == '\t' || c == '\r' || c == '\n'

def wordKind (word : String) : TokenKind :=
  match Keyword.ofSpelling? word with
  | some k => .keyword k
  | none => .identifier

def word (c : Char) (cs : List Char) : Piece where
  element := .token (wordKind (String.ofList (c :: cs.takeWhile isNamePart)))
  text := c :: cs.takeWhile isNamePart
  rest := cs.dropWhile isNamePart

/-- A point belongs to a number only if a digit follows it. -/
def number (c : Char) (cs : List Char) : Piece :=
  let whole := c :: cs.takeWhile Char.isDigit
  let plain (rest : List Char) : Piece :=
    ⟨.token (.number (Number.ofDigits whole [])), whole, rest⟩
  match cs.dropWhile Char.isDigit with
  | '.' :: d :: rest =>
    if d.isDigit then
      let fraction := d :: rest.takeWhile Char.isDigit
      { element := .token (.number (Number.ofDigits whole fraction))
        text := whole ++ '.' :: fraction
        rest := rest.dropWhile Char.isDigit }
    else
      plain ('.' :: d :: rest)
  | rest => plain rest

/-- After a quote: the characters up to the next quote are the content, whatever they are. -/
def string (cs : List Char) : Piece :=
  match cs.dropWhile (· != '"') with
  | [] => ⟨.unterminatedString, '"' :: cs, []⟩
  | q :: rest =>
    let content := cs.takeWhile (· != '"')
    ⟨.token (.string (String.ofList content)), '"' :: (content ++ [q]), rest⟩

def comment (cs : List Char) : Piece where
  element := .blank
  text := '/' :: cs.takeWhile (· != '\n')
  rest := cs.dropWhile (· != '\n')

def symbolOf? : Char → Option Symbol
  | '(' => some .leftParen
  | ')' => some .rightParen
  | '\x7b' => some .leftBrace
  | '\x7d' => some .rightBrace
  | ',' => some .comma
  | '.' => some .dot
  | '-' => some .minus
  | '+' => some .plus
  | ';' => some .semicolon
  | '/' => some .slash
  | '*' => some .star
  | '!' => some .bang
  | '=' => some .equal
  | '>' => some .greater
  | '<' => some .less
  | _ => none

def withEqual? : Symbol → Option Symbol
  | .bang => some .bangEqual
  | .equal => some .equalEqual
  | .greater => some .greaterEqual
  | .less => some .lessEqual
  | _ => none

theorem spelling_of_symbolOf? {c : Char} {s : Symbol} (h : symbolOf? c = some s) :
    s.spelling = [c] := by
  unfold symbolOf? at h
  split at h <;> cases h <;> rfl

theorem spelling_of_withEqual? {s t : Symbol} (h : withEqual? s = some t) :
    t.spelling = s.spelling ++ ['='] := by
  cases s <;> cases h <;> rfl

def symbol (s : Symbol) (c : Char) (cs : List Char) : Piece :=
  match withEqual? s, cs with
  | some t, '=' :: rest => ⟨.token (.symbol t), [c, '='], rest⟩
  | _, _ => ⟨.token (.symbol s), [c], cs⟩

def first (c : Char) (cs : List Char) : Piece :=
  if isNameStart c then word c cs
  else if c.isDigit then number c cs
  else if isBlank c then ⟨.blank, [c], cs⟩
  else if c = '"' then string cs
  else if c = '/' ∧ cs.head? = some '/' then comment cs
  else
    match symbolOf? c with
    | some s => symbol s c cs
    | none => ⟨.unrecognized c, [c], cs⟩

theorem number_append (c : Char) (cs : List Char) :
    (number c cs).text ++ (number c cs).rest = c :: cs := by
  have split := List.takeWhile_append_dropWhile (p := Char.isDigit) (l := cs)
  unfold number
  split
  · rename_i d rest heq
    rw [heq] at split
    split
    · simp [List.takeWhile_append_dropWhile, split]
    · simp [split]
  · simp [split]

theorem string_append (cs : List Char) : (string cs).text ++ (string cs).rest = '"' :: cs := by
  have split := List.takeWhile_append_dropWhile (p := (· != '"')) (l := cs)
  unfold string
  split
  · simp
  · rename_i q rest heq
    rw [heq] at split
    simp [split]

theorem symbol_append (s : Symbol) (c : Char) (cs : List Char) :
    (symbol s c cs).text ++ (symbol s c cs).rest = c :: cs := by
  unfold symbol
  split <;> rfl

/-- Splitting off the first element loses nothing. -/
theorem first_append (c : Char) (cs : List Char) :
    (first c cs).text ++ (first c cs).rest = c :: cs := by
  unfold first
  split
  · simp [word, List.takeWhile_append_dropWhile]
  split
  · exact number_append c cs
  split
  · rfl
  split
  · rename_i h
    rw [h]
    exact string_append cs
  split
  · rename_i h
    simp [comment, List.takeWhile_append_dropWhile, h.1]
  split
  · exact symbol_append _ c cs
  · rfl

/-- An element has at least one character. -/
theorem text_first_ne_nil (c : Char) (cs : List Char) : (first c cs).text ≠ [] := by
  unfold first word number string comment symbol
  repeat' split
  all_goals simp

/-- What follows the first element is shorter than the text. -/
theorem length_rest_first_lt (c : Char) (cs : List Char) :
    (first c cs).rest.length < (c :: cs).length := by
  have whole := congrArg List.length (first_append c cs)
  have pos := List.length_pos_iff.mpr (text_first_ne_nil c cs)
  simp only [List.length_append] at whole
  omega

end Piece

end LoxLang
