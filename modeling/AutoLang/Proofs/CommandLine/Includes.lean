import AutoLang.Proofs.CommandLine.OutputNames
import Mathlib

/-! The header that a source file includes. Its name and the paths of both files are made from the same base
by different ways, and the base may end in points and slashes. Where files are written at all, they stand
side by side, and the first line of one spells the name of the other. It spells it as it is, though, so a
name that holds a quote or a newline is not what the line includes. -/

namespace AutoLang

namespace C

/-- how a line begins that includes a file of the program -/
def directive : String := "#include \""

/-- the file that the first line of a text includes: its name stands between two quotes, and nothing
behind them -/
def included? (text : List Char) : Option (List Char) :=
  let line := text.takeWhile (· != '\n')
  let quoted := line.drop directive.toList.length
  if line.take directive.toList.length = directive.toList ∧ quoted.dropWhile (· != '"') = ['"'] then
    some (quoted.takeWhile (· != '"'))
  else none

variable {text file below : List Char}

/-- neither a quote nor a newline can be part of a name that is included -/
theorem plain_of_included? (h : included? text = some file) : '\n' ∉ file ∧ '"' ∉ file := by
  unfold included? at h
  dsimp only at h
  split at h
  · obtain rfl := Option.some.inj h
    constructor
    · intro hmem
      have hline := List.mem_of_mem_drop (List.takeWhile_subset _ hmem)
      simpa using List.mem_takeWhile_imp hline
    · intro hmem
      simpa using List.mem_takeWhile_imp hmem
  · cases h

/-- a name that holds neither is read as it is written -/
theorem included?_iff (file below : List Char) :
    included? (directive.toList ++ (file ++ '"' :: '\n' :: below)) = some file ↔ '\n' ∉ file ∧ '"' ∉ file := by
  refine ⟨plain_of_included?, fun ⟨hnewline, hquote⟩ => ?_⟩
  have hline : (directive.toList ++ (file ++ '"' :: '\n' :: below)).takeWhile (· != '\n') =
      directive.toList ++ (file ++ ['"']) := by
    have hplain : ∀ c ∈ directive.toList ++ (file ++ ['"']), (c != '\n') = true := by
      intro c hc
      rw [bne_iff_ne]
      rintro rfl
      have hrest := (List.mem_append.1 hc).resolve_left (by decide)
      exact hnewline ((List.mem_append.1 hrest).resolve_right (by decide))
    have hsplit : directive.toList ++ (file ++ '"' :: '\n' :: below) =
        directive.toList ++ (file ++ ['"']) ++ '\n' :: below := by simp
    rw [hsplit, List.takeWhile_append_of_pos hplain, List.takeWhile_cons_of_neg (by decide),
      List.append_nil]
  have hname : ∀ c ∈ file, (c != '"') = true := fun c hc => bne_iff_ne.2 fun heq => hquote (heq ▸ hc)
  unfold included?
  rw [hline]
  dsimp only
  rw [List.take_left, List.drop_left, List.dropWhile_append_of_pos hname,
    List.takeWhile_append_of_pos hname, if_pos ⟨rfl, rfl⟩, List.takeWhile_cons_of_neg (by decide),
    List.append_nil]

end C

/-- a source file begins with the line that includes its header -/
theorem Parsed.source_of_compile {p : Parsed} {name : String} {style : C.GuardStyle} {files : CFiles}
    (h : p.compile name style = .ok files) :
    ∃ below, files.source.toList = C.directive.toList ++ ((name ++ ".h").toList ++ '"' :: '\n' :: below) := by
  have hfiles : (compileOver .empty p.code name style).1 = .ok files := (Parsed.clean_of_compile h).2
  obtain ⟨q, -, hsource⟩ := program_of_compileOver hfiles
  have hquote : ".h\"\n\n".toList = ".h".toList ++ ['"', '\n', '\n'] := by decide
  refine ⟨'\n' :: q.body.toList, ?_⟩
  rw [hsource, C.Program.sourceText]
  simp only [String.toList_append, List.append_assoc, hquote, C.directive, List.cons_append, List.nil_append]

namespace CommandLine

variable {w w' : World} {b : String}

/-- a stem with an extension is a name in the directory that the path before it leads to -/
theorem resolve_stem {name front : List Char} {path ext : String} {place : Location}
    (hname : Path.IsName name) (hf : Path.IsFront front) (hext : ext ≠ "") (hslash : '/' ∉ ext.toList)
    (hpath : path.toList = front ++ Path.withSuffix (Path.stem name) ext.toList)
    (h : w.resolve path = .ok place) :
    ∃ dir, w.walk (World.origin front) (Path.segments front) = .ok dir ∧
      place = dir ++ [String.ofList (Path.stem name) ++ ("." ++ ext)] := by
  have hcons : ext.toList ≠ [] := by simpa using hext
  have hplain : '/' ∉ Path.stem name := fun hmem => hname.plain ((Path.isPrefix_stem name).subset hmem)
  have houtput := Path.isName_suffix (Path.stem_ne_nil hname.ne_nil) hplain hcons hslash
  rw [Path.withSuffix, if_neg (by simpa using hext)] at hpath
  exact World.resolve_suffix hpath hf houtput h

/-- where a path leads when it gets an extension: into one directory, whatever the extension is -/
theorem exists_directory {ext : String} {place : Location} (hroot : w.entry? [] = some .directory)
    (hplace : w.resolve (Path.withExtension b ext) = .ok place)
    (hfile : w.entry? place ≠ some .directory) (hext : ext ≠ "") (hslash : '/' ∉ ext.toList) :
    ∃ dir, ∀ ext' : String, ext' ≠ "" → '/' ∉ ext'.toList → ∀ place',
      w.resolve (Path.withExtension b ext') = .ok place' →
        place' = dir ++ [Path.moduleName b ++ ("." ++ ext')] := by
  cases hname : Path.fileName? b.toList with
  | none =>
    rw [Path.withExtension_nameless hname] at hplace
    exact absurd (World.directory_of_nameless hroot hname hplace) hfile
  | some name =>
    have hmodule : Path.moduleName b = String.ofList (Path.stem name) := by
      rw [Path.moduleName, hname]
      rfl
    obtain ⟨hisName, front, hf, hdots | hstem⟩ := Path.withExtension_named hname
    · exact absurd (World.directory_of_dots hroot (hdots ext) hf hplace) hfile
    · obtain ⟨dir, hdir, -⟩ := resolve_stem hisName hf hext hslash (hstem ext) hplace
      refine ⟨dir, fun ext' hne hplain place' h => ?_⟩
      obtain ⟨dir', hdir', hplace'⟩ := resolve_stem hisName hf hne hplain (hstem ext') h
      rw [hmodule, hplace', Except.ok.inj (hdir.symm.trans hdir')]

/-- If files are written, their paths lead into one directory, to one name with the extensions `h` and `c`,
and the first line of the source file is the directive with the name of the header between the quotes. It
includes the header exactly if the name holds neither a newline nor a quote. -/
theorem header_included_iff (w w' : World) (target : String) (output : Option String)
    (style : C.GuardStyle) (hroot : w.entry? [] = some .directory)
    (hwrites : output.isSome ∨ w.isFile target)
    (hrun : (compileTarget target output style : Command (StateM World) Unit).run.run w = (.ok (), w')) :
    let base := Path.withExtension (output.getD target) ""
    let name := Path.moduleName base
    ∃ (dir : Location) (source : String) (files : CFiles), textOf w target = .ok source ∧
      (parse source).compile name style = .ok files ∧
      w.resolve (Path.withExtension base "h") = .ok (dir ++ [name ++ ".h"]) ∧
      w.resolve (Path.withExtension base "c") = .ok (dir ++ [name ++ ".c"]) ∧
      w'.entry? = Function.update
        (Function.update w.entry? (dir ++ [name ++ ".h"]) (some (.file files.header.toUTF8)))
        (dir ++ [name ++ ".c"]) (some (.file files.source.toUTF8)) ∧
      (∃ below, files.source.toList =
        C.directive.toList ++ ((name ++ ".h").toList ++ '"' :: '\n' :: below)) ∧
      (C.included? files.source.toList = some (name ++ ".h").toList ↔
        '\n' ∉ name.toList ∧ '"' ∉ name.toList) := by
  intro base name
  have hbase : baseOf w target output = some base := by
    unfold baseOf
    cases output with
    | some o => rfl
    | none => rw [if_pos (hwrites.resolve_left nofun)]; rfl
  have houtcome := outcome_compileTarget w target output style
  rw [hrun, hbase] at houtcome
  cases houtcome with
  | nothing _ hnone => cases hnone rfl
  | @both b source files _ _ hb htext hfiles hheader hsource =>
    obtain rfl := Option.some.inj hb
    obtain ⟨place, hplace, hfile, hw⟩ := id hheader
    obtain ⟨place', hplace', -, hw'⟩ := hsource
    have hplace' := hheader.resolve.1 hplace'
    obtain ⟨dir, hdir⟩ := exists_directory hroot hplace hfile (by decide) (by decide)
    obtain rfl := hdir "h" (by decide) (by decide) _ hplace
    obtain rfl := hdir "c" (by decide) (by decide) _ hplace'
    obtain ⟨below, hbelow⟩ := Parsed.source_of_compile hfiles
    refine ⟨dir, source, files, htext, hfiles, hplace, hplace', by rw [hw', hw]; rfl, ⟨below, hbelow⟩, ?_⟩
    rw [hbelow, C.included?_iff]
    simp [name]

namespace Samples

/-- a machine with one file, in a directory of the working directory -/
def fileInside (dir name text : String) : World :=
  (World.empty ⟨#[]⟩).putFile (World.home ++ [dir, name]) text.toUTF8

end Samples

open CommandLine.Samples

/-- of several extensions none is left in the names of the files -/
theorem header_included_iff_inside : ∃ w', ∃ files : CFiles,
    (compileTarget "sub/a.tar.at" none .pragma : Command (StateM World) Unit).run.run
        (fileInside "sub" "a.tar.at" printOne) = (.ok (), w') ∧
      w'.entry? ["home", "sub", "a.h"] = some (.file files.header.toUTF8) ∧
      w'.entry? ["home", "sub", "a.c"] = some (.file files.source.toUTF8) ∧
      C.included? files.source.toList = some "a.h".toList := by
  let w := fileInside "sub" "a.tar.at" printOne
  have hloc : w.resolve "sub/a.tar.at" = .ok ["home", "sub", "a.tar.at"] := by rfl
  have hfile : w.entry? ["home", "sub", "a.tar.at"] = some (.file printOne.toUTF8) := rfl
  have hisFile := isFile_of_entry? hloc hfile
  have hb : baseOf w "sub/a.tar.at" none = some "sub/a.tar" := by
    rw [baseOf, if_pos hisFile]
    rfl
  have hheader : w.resolve (Path.withExtension "sub/a.tar" "h") = .ok ["home", "sub", "a.h"] := by rfl
  have hsource : w.resolve (Path.withExtension "sub/a.tar" "c") = .ok ["home", "sub", "a.c"] := by rfl
  have hfiles : (parse printOne).compile "a" .pragma = .ok (printFiles "a" "1") :=
    compile_print (by decide) (by decide)
  obtain ⟨_, w', hrun, -, -⟩ := compileTarget_ok (textOf_of_file hloc hfile) hb hfiles hheader
    (missing_of_none rfl) hsource (missing_of_none rfl)
  obtain ⟨dir, source, files, -, -, hplace, -, hentries, -, hincluded⟩ :=
    header_included_iff w w' "sub/a.tar.at" none .pragma rfl (.inr hisFile) hrun
  have hname : Path.moduleName (Path.withExtension ((none : Option String).getD "sub/a.tar.at") "") = "a" := by
    rfl
  rw [hname] at hplace hentries hincluded
  have hdir : dir ++ ["a.h"] = ["home", "sub"] ++ ["a.h"] := Except.ok.inj (hplace.symm.trans hheader)
  obtain rfl := List.append_cancel_right hdir
  refine ⟨w', files, hrun, ?_, ?_, hincluded.2 (by decide)⟩
  · rw [hentries, Function.update_of_ne (by decide)]
    exact Function.update_self ..
  · rw [hentries]
    exact Function.update_self ..

/-- under a name of two lines both files are written, and the first line of one includes nothing -/
theorem header_of_two_lines_not_included : ∃ w', ∃ files : CFiles,
    simulate (underName "print(1)" "a\nb") bareMachine = (0, w') ∧
      w'.entry? ["home", "a\nb.h"] = some (.file files.header.toUTF8) ∧
      w'.entry? ["home", "a\nb.c"] = some (.file files.source.toUTF8) ∧
      C.included? files.source.toList = none := by
  have hfiles : (parse "print(1)").compile "a\nb" .pragma = .ok (printFiles "a\nb" "1") :=
    compile_print (by decide) (by decide)
  have hcode : bareMachine.resolve "print(1)" = .ok ["home", "print(1)"] := by rfl
  have hheader : bareMachine.resolve (Path.outputPath "a\nb" "h") = .ok ["home", "a\nb.h"] := by rfl
  have hsource : bareMachine.resolve (Path.outputPath "a\nb" "c") = .ok ["home", "a\nb.c"] := by rfl
  obtain ⟨w', hrun, hentries, -⟩ := simulate_underName "print(1)" "a\nb" hcode rfl hfiles hheader
    (missing_of_none rfl) hsource (missing_of_none rfl)
  refine ⟨w', printFiles "a\nb" "1", hrun, ?_, ?_, by decide⟩
  · rw [hentries, Function.update_of_ne (by decide), Function.update_self]
  · rw [hentries, Function.update_self]

end CommandLine

end AutoLang
