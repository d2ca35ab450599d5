import LoxLang.Number.Text

/-!
Tokens: what a program text is made of once blanks and comments are gone. A token has a kind, the
text it was read from, and a line. Kinds of literals carry the literal itself.
-/
namespace LoxLang

inductive Symbol
  | leftParen | rightParen | leftBrace | rightBrace
  | comma | dot | minus | plus | semicolon | slash | star
  | bang | bangEqual | equal | equalEqual
  | greater | greaterEqual | less | lessEqual
  deriving DecidableEq, Repr

namespace Symbol

def spelling : Symbol → List Char
  | leftParen => ['('] | rightParen => [')'] | leftBrace => ['\x7b'] | rightBrace => ['\x7d']
  | comma => [','] | dot => ['.'] | minus => ['-'] | plus => ['+'] | semicolon => [';']
  | slash => ['/'] | star => ['*']
  | bang => ['!'] | bangEqual => ['!', '='] | equal => ['='] | equalEqual => ['=', '=']
  | greater => ['>'] | greaterEqual => ['>', '='] | less => ['<'] | lessEqual => ['<', '=']

def all : List Symbol :=
  [leftParen, rightParen, leftBrace, rightBrace, comma, dot, minus, plus, semicolon, slash, star,
    bang, bangEqual, equal, equalEqual, greater, greaterEqual, less, lessEqual]

def name : Symbol → String
  | leftParen => "LEFT_PAREN" | rightParen => "RIGHT_PAREN"
  | leftBrace => "LEFT_BRACE" | rightBrace => "RIGHT_BRACE"
  | comma => "COMMA" | dot => "DOT" | minus => "MINUS" | plus => "PLUS"
  | semicolon => "SEMICOLON" | slash => "SLASH" | star => "STAR"
  | bang => "BANG" | bangEqual => "BANG_EQUAL" | equal => "EQUAL" | equalEqual => "EQUAL_EQUAL"
  | greater => "GREATER" | greaterEqual => "GREATER_EQUAL"
  | less => "LESS" | lessEqual => "LESS_EQUAL"

end Symbol

inductive Keyword
  | andKw | classKw | elseKw | falseKw | funKw | forKw | ifKw | nilKw | orKw | printKw | returnKw
  | superKw | thisKw | trueKw | letKw | whileKw
  deriving DecidableEq, Repr

namespace Keyword

def spelling : Keyword → String
  | andKw => "and" | classKw => "class" | elseKw => "else" | falseKw => "false" | funKw => "fun"
  | forKw => "for" | ifKw => "if" | nilKw => "nil" | orKw => "or" | printKw => "print"
  | returnKw => "return" | superKw => "super" | thisKw => "this" | trueKw => "true"
  | letKw => "let" | whileKw => "while"

def all : List Keyword :=
  [andKw, classKw, elseKw, falseKw, funKw, forKw, ifKw, nilKw, orKw, printKw, returnKw, superKw,
    thisKw, trueKw, letKw, whileKw]

def name : Keyword → String
  | andKw => "AND" | classKw => "CLASS" | elseKw => "ELSE" | falseKw => "FALSE" | funKw => "FUN"
  | forKw => "FOR" | ifKw => "IF" | nilKw => "NIL" | orKw => "OR" | printKw => "PRINT"
  | returnKw => "RETURN" | superKw => "SUPER" | thisKw => "THIS" | trueKw => "TRUE"
  | letKw => "LET" | whileKw => "WHILE"

/-- The keyword with exactly this spelling; upper case letters count as other letters. -/
def ofSpelling? (word : String) : Option Keyword := all.find? (·.spelling == word)

/-- Every keyword is found by its spelling. -/
theorem ofSpelling?_spelling (k : Keyword) : ofSpelling? k.spelling = some k := by
  cases k <;> rfl

/-- What is found by a word is spelled like the word. -/
theorem spelling_of_ofSpelling? {word : String} {k : Keyword} (h : ofSpelling? word = some k) :
    k.spelling = word := by
  simpa using List.find?_some h

end Keyword

inductive TokenKind
  | symbol (s : Symbol)
  | keyword (k : Keyword)
  | identifier
  | string (content : String)
  | number (value : Float)
  | eof
  deriving Inhabited

namespace TokenKind

def name : TokenKind → String
  | symbol s => s.name
  | keyword k => k.name
  | identifier => "IDENTIFIER"
  | string _ => "STRING"
  | number _ => "NUMBER"
  | eof => "EOF"

def same : TokenKind → TokenKind → Bool
  | symbol s, symbol t => s == t
  | keyword k, keyword l => k == l
  | identifier, identifier => true
  | string _, string _ => true
  | number _, number _ => true
  | eof, eof => true
  | _, _ => false

/-- Do both carry the same literal? Numbers compare as numbers: `0` equals `-0`. -/
def sameLiteral : TokenKind → TokenKind → Bool
  | string s, string t => s == t
  | number x, number y => x == y
  | _, _ => true

def literalText : TokenKind → String
  | string content => content
  | number value => Number.tokenText value
  | _ => "null"

def isEof : TokenKind → Bool
  | eof => true
  | _ => false

end TokenKind

structure Token where
  kind : TokenKind
  /-- The text it was read from; it need not agree with the literal. -/
  lexeme : String
  /-- Counted from 1; of a literal with several lines, the last. -/
  line : Nat
  deriving Inhabited

namespace Token

def same (a b : Token) : Bool :=
  a.kind.same b.kind && a.kind.sameLiteral b.kind && a.lexeme == b.lexeme && a.line == b.line

def text (t : Token) : String :=
  t.kind.name ++ " " ++ t.lexeme ++ " " ++ t.kind.literalText

end Token

end LoxLang
