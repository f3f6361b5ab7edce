/-! What the program asks of the machine it runs on, and why the machine may refuse. -/

namespace AutoLang.CommandLine

/-- why a file cannot be read or written -/
inductive FileFault where
  | notFound
  | notDirectory
  | isDirectory
  | nameTooLong
  | notText
  | other (message : String)
deriving DecidableEq, Repr

def FileFault.message : FileFault → String
  | notFound => "No such file or directory (os error 2)"
  | notDirectory => "Not a directory (os error 20)"
  | isDirectory => "Is a directory (os error 21)"
  | nameTooLong => "File name too long (os error 36)"
  | notText => "stream did not contain valid UTF-8"
  | other message => message

/-- files, standard output and standard error -/
class Host (m : Type → Type) where
  isFile (path : String) : m Bool
  read (path : String) : m (Except FileFault String)
  write (path text : String) : m (Except FileFault Unit)
  say (text : String) : m Unit
  warn (text : String) : m Unit
  /-- whether standard error is a terminal -/
  warnsTerminal : m Bool

end AutoLang.CommandLine
