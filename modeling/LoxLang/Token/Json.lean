import LoxLang.Token

/-!
Tokens as JSON objects on one line, keys in a fixed order. A kind without a literal is a JSON
string, one with a literal an object of one key.
-/
namespace LoxLang

namespace Json

def hexDigit (n : Nat) : Char := Nat.digitChar (n % 16)

/-- A character of a JSON string: quote, backslash and control characters are escaped, nothing
else. -/
def escapeChar (c : Char) : String :=
  if c = '"' then "\\\""
  else if c = '\\' then "\\\\"
  else if c = '\x08' then "\\b"
  else if c = '\x0c' then "\\f"
  else if c = '\n' then "\\n"
  else if c = '\r' then "\\r"
  else if c = '\t' then "\\t"
  else if c.toNat < 0x20 then "\\u00" ++ String.ofList [hexDigit (c.toNat / 16), hexDigit c.toNat]
  else String.singleton c

def quote (s : String) : String :=
  "\"" ++ s.toList.foldl (fun out c => out ++ escapeChar c) "" ++ "\""

end Json

def TokenKind.json : TokenKind → String
  | .string content => "\x7b\"STRING\":" ++ Json.quote content ++ "\x7d"
  | .number value => "\x7b\"NUMBER\":" ++ Number.jsonText value ++ "\x7d"
  | kind => Json.quote kind.name

def Token.json (t : Token) : String :=
  "\x7b\"token_type\":" ++ t.kind.json ++ ",\"lexeme\":" ++ Json.quote t.lexeme ++
    ",\"line\":" ++ toString t.line ++ "\x7d"

end LoxLang
