import AutoLang.C.Print
import AutoLang.Program
/-! The command line: options in any order and at most one file. Of several actions the last counts;
asking for the version or for help counts at once. -/

namespace AutoLang.CommandLine

inductive Action where
  | evaluate (code : String)
  | runFile (path : String)
  | compile (target : String)
  | interactive
  | version
  | help
deriving DecidableEq, Repr, Inhabited

/-- what is shown of a text instead of running it -/
inductive Dump where
  | tokens | tree
deriving DecidableEq, Repr

structure Invocation where
  action : Action
  /-- the base name of the files that are written -/
  output : Option String
  mode : EvalMode
  style : C.GuardStyle
  dump : Option Dump
deriving DecidableEq, Repr, Inhabited

/-- an invocation without options -/
def Invocation.plain (action : Action) : Invocation := ⟨action, none, .script, .pragma, none⟩

/-- why a command line cannot be followed -/
inductive ArgumentError where
  | missingArgument (flag : String)
  | unknownOption (arg : String)
  | unexpectedArgument (arg : String)
  | unknownMode (name : String)
  | nothingToDo
deriving DecidableEq, Repr

def ArgumentError.message : ArgumentError → String
  | missingArgument flag => s!"{flag} requires an argument"
  | unknownOption arg => s!"unknown option: {arg}"
  | unexpectedArgument arg => s!"unexpected argument: {arg}"
  | unknownMode name => s!"unknown eval mode '{name}' (expected script, config or template)"
  | nothingToDo => "nothing to do; pass a file, -e <code>, -t <code> or --repl"

/-- the options before these arguments, and the action they asked for -/
def parseFrom (action : Option Action) (inv : Invocation) :
    List String → Except ArgumentError Invocation
  | [] =>
    match action with
    | some a => .ok { inv with action := a }
    | none => .error .nothingToDo
  | arg :: args =>
    match arg, args with
    | "-v", _ | "--version", _ => .ok (.plain .version)
    | "-h", _ | "--help", _ => .ok (.plain .help)
    | "-e", [] | "-t", [] | "-o", [] | "--mode", [] => .error (.missingArgument arg)
    | "-e", code :: rest => parseFrom (some (.evaluate code)) inv rest
    | "-t", target :: rest => parseFrom (some (.compile target)) inv rest
    | "-o", name :: rest => parseFrom action { inv with output := some name } rest
    | "--mode", name :: rest =>
      match EvalMode.ofName? name with
      | some mode => parseFrom action { inv with mode := mode } rest
      | none => .error (.unknownMode name)
    | "--include-guard", rest => parseFrom action { inv with style := .define } rest
    | "--repl", rest => parseFrom (some .interactive) inv rest
    | "--ast", rest => parseFrom action { inv with dump := some .tree } rest
    | "--tokens", rest => parseFrom action { inv with dump := some .tokens } rest
    | path, rest =>
      if path.startsWith "-" && path != "-" then .error (.unknownOption path)
      else if action.isSome then .error (.unexpectedArgument path)
      else parseFrom (some (.runFile path)) inv rest

def parseArguments (args : List String) : Except ArgumentError Invocation :=
  parseFrom none (.plain .help) args

end AutoLang.CommandLine
