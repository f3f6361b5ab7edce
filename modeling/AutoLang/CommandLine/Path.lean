/-! File names in paths. Slashes separate the segments of a path; a slash or a `.` at the end adds
nothing to it. -/

namespace AutoLang.CommandLine.Path

/-- the segments of a path; nothing between two slashes is no segment -/
def segments (path : List Char) : List String :=
  ((path.splitOn '/').filter (!·.isEmpty)).map String.ofList

/-- drop trailing slashes and `.` segments from a path that is spelled backwards -/
@[simp]
def trimBackward : List Char → List Char
  | '/' :: r => trimBackward r
  | '.' :: '/' :: r => trimBackward ('/' :: r)
  | r => r

/-- a path up to the end of its last segment -/
def trimmed (path : List Char) : List Char := (trimBackward path.reverse).reverse

def lastSegment (path : List Char) : List Char :=
  (path.reverse.takeWhile (· != '/')).reverse

/-- the last segment of a path, if it names something -/
def fileName? (path : List Char) : Option (List Char) :=
  let segment := lastSegment (trimmed path)
  if segment == [] || segment == ['.'] || segment == ['.', '.'] then none else some segment

/-- a file name cut at its last point; a point at the beginning does not count -/
def splitName (name : List Char) : List Char × Option (List Char) :=
  let ending := (name.reverse.takeWhile (· != '.')).reverse
  let stem := name.take (name.length - ending.length - 1)
  if ending.length = name.length || stem.isEmpty then (name, none) else (stem, some ending)

/-- a path without the characters of its extension; the point stays -/
def dropExtension (path : List Char) : List Char :=
  match (fileName? path).bind fun name => (splitName name).2 with
  | some ext => path.take (path.length - ext.length)
  | none => path

/-- a path with another extension, or without one; a path that names nothing stays as it is -/
def withExtension (path ext : String) : String :=
  let base := dropExtension path.toList
  match fileName? base with
  | none => String.ofList base
  | some name =>
    let trim := trimmed base
    let stem := trim.take (trim.length - name.length) ++ (splitName name).1
    String.ofList (if ext.isEmpty then stem else stem ++ '.' :: ext.toList)

/-- the name of a module when its path gives none -/
def defaultName : String := "out"

/-- the file name of a path without its extension -/
def moduleName (path : String) : String :=
  match fileName? path.toList with
  | some name => String.ofList (splitName name).1
  | none => defaultName

end AutoLang.CommandLine.Path
