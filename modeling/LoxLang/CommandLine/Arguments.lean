/-!
The arguments of the program. They are read from left to right, so a request for help or the version
counts if nothing before it is wrong; which flags go together is judged at the end.
-/
namespace LoxLang.CommandLine

inductive Flag
  | log
  | tokens
  | json
  | ast
  deriving DecidableEq, Repr

namespace Flag

def name : Flag → String
  | log => "--log"
  | tokens => "--tokens"
  | json => "--json"
  | ast => "--ast"

def all : List Flag := [log, tokens, json, ast]

def ofName? (name : String) : Option Flag := all.find? (·.name == name)

end Flag

inductive Mode
  | run
  | tokens (json : Bool)
  | ast
  deriving DecidableEq, Repr

structure Invocation where
  flags : List Flag
  scripts : List String

namespace Invocation

def none : Invocation := ⟨[], []⟩

def has (i : Invocation) (f : Flag) : Bool := i.flags.contains f

/-- Tokens and trees are not shown together, and JSON is a way to show something. -/
def isConsistent (i : Invocation) : Bool :=
  !(i.has .tokens && i.has .ast) && (!i.has .json || i.has .tokens || i.has .ast)

def mode (i : Invocation) : Mode :=
  if i.has .tokens then .tokens (i.has .json) else if i.has .ast then .ast else .run

end Invocation

inductive Request
  | help
  | version
  | invoke (i : Invocation)
  | usageError

inductive Argument
  | script (name : String)
  | flag (f : Flag)
  | optionsEnd
  | help
  | version
  | unknown

/-- An argument that starts with a dash is an option, unless it is a dash alone. Of short options
written together the first one decides. -/
def Argument.ofText (text : String) : Argument :=
  match text.toList with
  | ['-', '-'] => .optionsEnd
  | '-' :: '-' :: _ =>
    if text = "--help" then .help
    else if text = "--version" then .version
    else
      match Flag.ofName? text with
      | some f => .flag f
      | none => .unknown
  | '-' :: 'h' :: _ => .help
  | '-' :: 'V' :: _ => .version
  | '-' :: _ :: _ => .unknown
  | _ => .script text

def addScript (i : Invocation) (name : String) (next : Invocation → Request) : Request :=
  if name = "" then .usageError else next { i with scripts := i.scripts ++ [name] }

def readScripts (i : Invocation) : List String → Request
  | [] => if i.isConsistent then .invoke i else .usageError
  | name :: rest => addScript i name fun i => readScripts i rest

def readArguments (i : Invocation) : List String → Request
  | [] => readScripts i []
  | text :: rest =>
    match Argument.ofText text with
    | .script name => addScript i name fun i => readArguments i rest
    | .flag f =>
      if i.has f then .usageError else readArguments { i with flags := f :: i.flags } rest
    | .optionsEnd => readScripts i rest
    | .help => .help
    | .version => .version
    | .unknown => .usageError

def Request.ofArguments (arguments : List String) : Request := readArguments .none arguments

end LoxLang.CommandLine
