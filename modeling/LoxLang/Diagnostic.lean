import LoxLang.Token

/-!
Diagnostics: what is told about a program that is wrong, as one line of text. Those found before
the program runs are static; the others, runtime errors and failures of the output, are not.
-/
namespace LoxLang

inductive Place
  | lexeme (text : String)
  | atEnd
  deriving DecidableEq, Repr

def Place.text : Place → String
  | lexeme text => " at '" ++ text ++ "'"
  | atEnd => " at end"

def Token.place (t : Token) : Place :=
  if t.kind.isEof then .atEnd else .lexeme t.lexeme

inductive Diagnostic
  | lexical (line : Nat) (message : String)
  /-- Found by the grammar or by the rules of scopes, at a token. -/
  | anchored (line : Nat) (place : Place) (message : String)
  | runtime (line : Nat) (message : String)
  | output (message : String)
  deriving DecidableEq, Repr

namespace Diagnostic

def atToken (t : Token) (message : String) : Diagnostic := anchored t.line t.place message

def isStatic : Diagnostic → Bool
  | lexical .. | anchored .. => true
  | runtime .. | output .. => false

def lineTag (line : Nat) : String := "[line " ++ toString line ++ "] "

def text : Diagnostic → String
  | lexical line message => lineTag line ++ "Error: " ++ message
  | anchored line place message => lineTag line ++ "Error" ++ place.text ++ ": " ++ message
  | runtime line message => lineTag line ++ "Runtime error: " ++ message
  | output message => message

end Diagnostic

end LoxLang
