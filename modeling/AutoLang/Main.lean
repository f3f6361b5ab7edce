import AutoLang.CommandLine.Run
/-! The program on a real machine. -/

namespace AutoLang.CommandLine

/-- what a refusal of the machine means -/
def FileFault.ofError : IO.Error → FileFault
  | .noFileOrDirectory _ _ _ => .notFound
  | .inappropriateType _ 20 _ => .notDirectory
  | .inappropriateType _ 21 _ => .isDirectory
  | .invalidArgument _ 36 _ => .nameTooLong
  | e => .other (toString e)

instance : Host IO where
  isFile path := do
    try
      return (← (← IO.FS.realPath path).metadata).type == .file
    catch _ => return false
  read path := do
    try
      let bytes ← IO.FS.readBinFile path
      match String.fromUTF8? bytes with
      | some text => return .ok text
      | none => return .error .notText
    catch e => return .error (.ofError e)
  write path text := do
    try
      IO.FS.writeFile path text
      return .ok ()
    catch e => return .error (.ofError e)
  say text := do
    (← IO.getStdout).putStr text
    (← IO.getStdout).flush
  warn text := do (← IO.getStderr).putStr text
  warnsTerminal := do (← IO.getStderr).isTty

/-- read lines until the session ends -/
partial def interact : IO Nat := do
  Host.say prompt
  let line ←
    try
      let text ← (← IO.getStdin).getLine
      pure (if text.isEmpty then none else some (.ok text))
    catch _ => pure (some (.error FileFault.notText))
  match line with
  | none => farewell
  | some line =>
    match ← reply line with
    | some code => return code
    | none => interact

end AutoLang.CommandLine

def main (args : List String) : IO UInt32 := do
  match ← AutoLang.CommandLine.start args with
  | .exit code => return code.toUInt32
  | .interactive =>
    AutoLang.CommandLine.Host.say AutoLang.CommandLine.greeting
    return (← AutoLang.CommandLine.interact).toUInt32
