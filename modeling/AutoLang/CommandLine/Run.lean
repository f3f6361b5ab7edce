import AutoLang.CommandLine.Arguments
import AutoLang.CommandLine.Host
import AutoLang.CommandLine.Path
import AutoLang.Diagnostic.Render
import AutoLang.Text.Blank
import AutoLang.Tree.Show
/-! The commands. Results go to standard output and problems to standard error; the exit code is one
if anything failed. -/

namespace AutoLang.CommandLine

/-- why a command ends early -/
inductive Failure where
  | arguments (e : ArgumentError)
  | read (path : String) (fault : FileFault)
  | write (path : String) (fault : FileFault)
  /-- the program has no counterpart in C -/
  | unsupported (message : String)
  /-- the problems were shown already -/
  | reported
deriving DecidableEq, Repr

/-- what is still to be said of a failure -/
def Failure.message? : Failure → Option String
  | arguments e => some e.message
  | read path fault => some s!"cannot read '{path}': {fault.message}"
  | write path fault => some s!"cannot write '{path}': {fault.message}"
  | unsupported message => some message
  | reported => none

/-- how a command line goes on -/
inductive Course where
  | exit (code : Nat)
  | interactive
deriving DecidableEq, Repr

def versionText : String := "autoc 0.1.0\nCompiler and interpreter for auto-lang\n"

def usageLines : List String :=
  ["auto-lang compiler",
    "",
    "Usage: autoc [options] [file]",
    "",
    "Options:",
    "  -e <code>          Evaluate code and print the result",
    "  -t <code|file>     Transpile to C",
    "  -o <name>          Output base name for -t (writes <name>.h and <name>.c)",
    "  --include-guard    Use #ifndef guards instead of #pragma once",
    "  --mode <mode>      Evaluation mode: script (default), config, template",
    "  --repl             Start the interactive REPL",
    "  --tokens           Print the token stream instead of running",
    "  --ast              Print the syntax tree instead of running",
    "  -v, --version      Show version",
    "  -h, --help         Show this help",
    "",
    "Environment:",
    "  AUTOC_LOG=<filter> Enable tracing output on stderr (e.g. AUTOC_LOG=debug)"]

def usageText : String := String.join (usageLines.map (· ++ "\n"))

section

variable {m : Type → Type} [Monad m] [Host m]

abbrev Command (m : Type → Type) := ExceptT Failure m

def say (text : String) : Command m Unit := ExceptT.lift (Host.say text)

def readFile (path : String) : Command m String := do
  match ← ExceptT.lift (Host.read path) with
  | .ok text => return text
  | .error fault => throw (.read path fault)

def writeFile (path text : String) : Command m Unit := do
  match ← ExceptT.lift (Host.write path text) with
  | .ok _ => return
  | .error fault => throw (.write path fault)

/-- show diagnostics, with the lines they point at and a closing line; having any is a failure -/
def report (source : String) (ds : List Diagnostic) : Command m Unit := do
  if ds.isEmpty then return
  let canvas : Diagnostic.Canvas :=
    ⟨Diagnostic.ColorMode.decide .auto (← ExceptT.lift Host.warnsTerminal), some source⟩
  let errors := (ds.filter (·.isError)).length
  ExceptT.lift (Host.warn (canvas.drawAll ds ++ canvas.summary errors (ds.length - errors)))
  throw .reported

/-- an error that a program ended with -/
def runtimeError (message : String) : Diagnostic :=
  ⟨.evaluation, .error, s!"runtime error: {message}", [], []⟩

/-- run a text and print its value; one that gives nothing prints nothing -/
def evaluate (source : String) : Command m Unit := do
  let parsed := parse source
  report source parsed.diagnostics
  let result := parsed.run
  say result.output
  match result.message?, result.value? with
  | some message, _ => report source [runtimeError message]
  | none, some v => if v.isVoid then return else say (v.shown ++ "\n")
  | none, none => return

/-- a place, filled up to eight columns -/
def placeColumn (s : Span) : String := s.place.pushn ' ' (8 - s.place.length)

/-- list the tokens of a text, then its problems -/
def dumpTokens (source : String) : Command m Unit := do
  let (tokens, after) := (Lexer.ofSource source).drain #[]
  say s!"Tokens ({tokens.size}):\n"
  say (String.join (tokens.toList.map fun t => s!"  {placeColumn t.span} {t.shown}\n"))
  report source after.errors

/-- show the tree of a text, then its problems -/
def dumpTree (source : String) : Command m Unit := do
  let parsed := parse source
  say (Show.code parsed.code ++ "\n")
  report source parsed.diagnostics

def dumpText : Dump → String → Command m Unit
  | .tokens => dumpTokens
  | .tree => dumpTree

/-- write a file and say so -/
def generate (path text : String) : Command m Unit := do
  writeFile path text
  say s!"Generated: {path}\n"

/-- compile a file, or a text if there is no such file. What comes from a file, or has an output name,
is written to a header and a source file; other code is printed. -/
def compileTarget (target : String) (output : Option String) (style : C.GuardStyle) :
    Command m Unit := do
  let isFile ← ExceptT.lift (Host.isFile target)
  let source ← if isFile then readFile target else pure target
  let base := (output.or (if isFile then some target else none)).map (Path.withExtension · "")
  let name := (base.map Path.moduleName).getD Path.defaultName
  let parsed := parse source
  report source parsed.diagnostics
  match parsed.compile name style, base with
  | .error why, _ => throw (.unsupported why.message)
  | .ok files, some base =>
    generate (Path.withExtension base "h") files.header
    generate (Path.withExtension base "c") files.source
  | .ok files, none =>
    say "=== Generated C Code ===\n\n"
    say s!"--- Header (.h) ---\n{files.header}\n"
    say s!"--- Source (.c) ---\n{files.source}\n"

def follow (inv : Invocation) : Command m Course := do
  match inv.action with
  | .version => say versionText
  | .help => say usageText
  | .interactive => return .interactive
  | .compile target => compileTarget target inv.output inv.style
  | .evaluate code =>
    match inv.dump with
    | some d => dumpText d code
    | none => evaluate code
  | .runFile path =>
    let source ← readFile path
    match inv.dump with
    | some d => dumpText d source
    | none => evaluate source
  return .exit 0

/-- say what is left to be said of a failure -/
def fail (f : Failure) : m Nat := do
  match f.message? with
  | some message => Host.warn s!"Error: {message}\n"
  | none => pure ()
  return 1

/-- follow a command line up to its end, or to the interactive session; without arguments the usage
is shown -/
def start (args : List String) : m Course := do
  if args.isEmpty then
    Host.say usageText
    return .exit 1
  let command : Command m Course := do
    match parseArguments args with
    | .ok inv => follow inv
    | .error e => throw (.arguments e)
  match ← command.run with
  | .ok course => return course
  | .error f => return .exit (← fail f)

def greeting : String := "auto-lang REPL (type \x60exit\x60 to leave)\n"

def prompt : String := "> "

def farewell : m Nat := do
  Host.say "\nGoodbye!\n"
  return 0

/-- run one line of a session, every line over fresh scopes; the exit code if the session ends -/
def reply (line : Except FileFault String) : m (Option Nat) := do
  match line with
  | .error fault => return some (← fail (.read "<stdin>" fault))
  | .ok text =>
    let source := Text.trim text
    if source == "exit" || source == "quit" then return some (← farewell)
    if source.isEmpty then return none
    let result := run source
    Host.say result.output
    match result.message?, result.value? with
    | some message, _ => Host.warn s!"Error: {message}\n"
    | none, some v => if v.isVoid then pure () else Host.say (v.shown ++ "\n")
    | none, none => pure ()
    return none

/-- a session over the lines of the input -/
def converse : List (Except FileFault String) → m Nat
  | [] => do
    Host.say prompt
    farewell
  | line :: lines => do
    Host.say prompt
    match ← reply line with
    | some code => return code
    | none => converse lines

end

end AutoLang.CommandLine
