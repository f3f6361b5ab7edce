import AutoLang.C.Compile
import AutoLang.C.Print
import AutoLang.Eval.Basic
import AutoLang.Parse.Program
/-! Source texts run and compiled. A text with problems is rejected with the first of them, those with
tokens before those with phrases; otherwise its tree is run over fresh scopes, or compiled to C. -/

namespace AutoLang

/-- what a program is meant as; it does not change what the program does -/
inductive EvalMode where
  | script | config | template
deriving DecidableEq, Repr, Inhabited

namespace EvalMode

def name : EvalMode → String
  | script => "script"
  | config => "config"
  | template => "template"

def ofName? (s : String) : Option EvalMode := [script, config, template].find? (·.name == s)

end EvalMode

inductive Status where
  | ok | lexError | parseError | evalError
deriving DecidableEq, Repr, Inhabited

def Status.name : Status → String
  | ok => "ok"
  | lexError => "lex_error"
  | parseError => "parse_error"
  | evalError => "eval_error"

/-- why a text is neither run nor compiled -/
structure Rejection where
  status : Status
  message : String
deriving DecidableEq, Repr

/-- the first problem of a text -/
def Parsed.rejection? (p : Parsed) : Option Rejection :=
  match p.tokenErrors, p.errors with
  | d :: _, _ => some ⟨.lexError, d.shown⟩
  | [], d :: _ => some ⟨.parseError, d.shown⟩
  | [], [] => none

inductive RunResult where
  | rejected (why : Rejection)
  | finished (value : Value) (output : String)

namespace RunResult

def status : RunResult → Status
  | rejected why => why.status
  | finished (.error _) _ => .evalError
  | finished _ _ => .ok

def value? : RunResult → Option Value
  | rejected _ => none
  | finished v _ => some v

/-- the message of a rejection, or of the error that a run ended with -/
def message? : RunResult → Option String
  | rejected why => some why.message
  | finished v _ => v.error?

/-- what was printed -/
def output : RunResult → String
  | rejected _ => ""
  | finished _ out => out

end RunResult

/-- a run over fresh scopes: its value and what it changed -/
def runCode (code : Code) : Value × EvalState := (Eval.code code).run ⟨.empty, "", false⟩

def Parsed.run (p : Parsed) : RunResult :=
  match p.rejection? with
  | some why => .rejected why
  | none =>
    let (v, s) := runCode p.code
    .finished v s.output

def run (source : String) : RunResult := (parse source).run

/-- the two files of a compiled program -/
structure CFiles where
  header : String
  source : String
deriving DecidableEq, Repr

/-- compile a tree over scopes; those that were opened are there afterwards, also by a failure -/
def compileOver (scopes : ScopeTree) (code : Code) (name : String) (style : C.GuardStyle) :
    Except C.Unsupported CFiles × ScopeTree :=
  let (r, scopes) := (C.Compile.program code).run.run scopes
  (r.map fun p => ⟨p.headerText name style, p.sourceText name⟩, scopes)

/-- compile a tree over fresh scopes -/
def compileCode (code : Code) (name : String) (style : C.GuardStyle) :
    Except C.Unsupported CFiles × ScopeTree :=
  compileOver .empty code name style

def Parsed.compile (p : Parsed) (name : String) (style : C.GuardStyle) :
    Except Rejection CFiles :=
  match p.rejection? with
  | some why => .error why
  | none =>
    match (compileCode p.code name style).1 with
    | .ok files => .ok files
    | .error u => .error ⟨.evalError, u.message⟩

def compile (source name : String) (style : C.GuardStyle) : Except Rejection CFiles :=
  (parse source).compile name style

end AutoLang
