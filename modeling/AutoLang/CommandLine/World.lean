import AutoLang.CommandLine.Host
import AutoLang.CommandLine.Path
import AutoLang.Text.Lines
/-! A machine as a value: directories and files, the standard input, and what was printed. The
working directory stands one level below the root. There are no links, so an entry has one location only,
and two paths lead to the same file exactly if they resolve to the same location. -/

namespace AutoLang.CommandLine

/-- what stands at a location -/
inductive Entry where
  | directory
  | file (bytes : ByteArray)

/-- the segments from the root to an entry -/
abbrev Location := List String

structure World where
  entries : List (Location × Entry)
  input : ByteArray
  stdout : String
  stderr : String

namespace World

/-- the working directory -/
def home : Location := ["home"]

def entry? (w : World) (loc : Location) : Option Entry := w.entries.lookup loc

def put (w : World) (loc : Location) (e : Entry) : World :=
  { w with entries := (loc, e) :: w.entries.filter (·.1 != loc) }

/-- all directories above a location -/
def parents (loc : Location) : List Location := (List.range loc.length).map loc.take

/-- a file and the directories above it -/
def putFile (w : World) (loc : Location) (bytes : ByteArray) : World :=
  let w := (parents loc).foldl (fun w p => if (w.entry? p).isNone then w.put p .directory else w) w
  w.put loc (.file bytes)

/-- an empty working directory -/
def empty (input : ByteArray) : World :=
  ⟨[(home, .directory), ([], .directory)], input, "", ""⟩

def maxSegment : Nat := 255

def maxPath : Nat := 4095

/-- follow segments from a location; every step needs a directory to start from -/
def walk (w : World) : Location → List String → Except FileFault Location
  | loc, [] => .ok loc
  | loc, segment :: rest =>
    match w.entry? loc with
    | none => .error .notFound
    | some (.file _) => .error .notDirectory
    | some .directory =>
      if segment == "." then w.walk loc rest
      else if segment == ".." then w.walk loc.dropLast rest
      else if maxSegment < segment.utf8ByteSize then .error .nameTooLong
      else w.walk (loc ++ [segment]) rest

/-- where a path leads; a slash at its end asks for a directory -/
def resolve (w : World) (path : String) : Except FileFault Location :=
  if path.isEmpty then .error .notFound
  else if maxPath < path.utf8ByteSize then .error .nameTooLong
  else
    let segments := Path.segments path.toList
    let start := if path.toList.head? = some '/' then [] else home
    w.walk start (if path.toList.getLast? = some '/' then segments ++ ["."] else segments)

def isFile (w : World) (path : String) : Bool :=
  match w.resolve path with
  | .error _ => false
  | .ok loc =>
    match w.entry? loc with
    | some (.file _) => true
    | _ => false

def read (w : World) (path : String) : Except FileFault String := do
  match w.entry? (← w.resolve path) with
  | none => .error .notFound
  | some .directory => .error .isDirectory
  | some (.file bytes) =>
    match String.fromUTF8? bytes with
    | some text => .ok text
    | none => .error .notText

def write (w : World) (path text : String) : Except FileFault World := do
  let loc ← w.resolve path
  match w.entry? loc with
  | some .directory => .error .isDirectory
  | _ => .ok (w.put loc (.file text.toUTF8))

/-- the lines of the input -/
def lines (w : World) : List (Except FileFault String) :=
  (Text.byteLines w.input.toList).map fun bytes =>
    match String.fromUTF8? ⟨bytes.toArray⟩ with
    | some line => .ok line
    | none => .error .notText

end World

instance : Host (StateM World) where
  isFile path := return (← get).isFile path
  read path := return (← get).read path
  write path text := do
    match (← get).write path text with
    | .ok w =>
      set w
      return .ok ()
    | .error e => return .error e
  say text := modify fun w => { w with stdout := w.stdout ++ text }
  warn text := modify fun w => { w with stderr := w.stderr ++ text }
  warnsTerminal := return false

end AutoLang.CommandLine
