import LoxLang.Text.Visible

/-!
Text in double quotes, as file names are shown in messages. Double quotes and backslashes are
escaped, and so is every character that could not be seen. An apostrophe is as it is, since it does
not end the text.
-/
namespace LoxLang.Text

def codePoint (c : Char) : String :=
  "\\u\x7b" ++ String.ofList (Nat.toDigits 16 c.toNat) ++ "\x7d"

def escapeChar (c : Char) : String :=
  if c = '\x00' then "\\0"
  else if c = '\t' then "\\t"
  else if c = '\r' then "\\r"
  else if c = '\n' then "\\n"
  else if c = '"' then "\\\""
  else if c = '\\' then "\\\\"
  else if isVisible c then String.singleton c
  else codePoint c

def quoted (s : String) : String :=
  "\"" ++ s.toList.foldl (fun out c => out ++ escapeChar c) "" ++ "\""

example : quoted "it's\t\"" = "\"it's\\t\\\"\"" := by decide +kernel

end LoxLang.Text
