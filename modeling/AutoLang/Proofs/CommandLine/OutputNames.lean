import AutoLang.Proofs.CommandLine.Targets
import Mathlib

/-! The names of the files that are written. An output name goes through two replacements of its
extension, so the files are called after what is left of it without the last two: names that differ only
behind that write to the same files. -/

namespace AutoLang.CommandLine

variable {args : List String} {inv : Invocation} {target name : String} {w w' : World}

/-- a command line that compiles ends as the compilation does -/
theorem run_start (hargs : parseArguments args = .ok inv) (haction : inv.action = .compile target)
    (w : World) : (start args : StateM World Course).run w =
      match (compileTarget target inv.output inv.style : Command (StateM World) Unit).run.run w with
      | (.ok _, w') => (.exit 0, w')
      | (.error f, w') => (.exit 1, ((fail f : StateM World Nat).run w').2) := by
  have hne : args.isEmpty = false := by
    cases args with
    | nil => cases hargs
    | cons _ _ => rfl
  have hfollow : (follow inv : Command (StateM World) Course) =
      (do compileTarget target inv.output inv.style; return .exit 0) := by
    unfold follow
    rw [haction]
  unfold start
  simp only [hne, hargs, Bool.false_eq_true, if_false]
  rw [StateT.run_bind, hfollow, run_bind]
  generalize ((compileTarget target inv.output inv.style : Command (StateM World) Unit).run.run w) = ran
  obtain ⟨r, after⟩ := ran
  cases r with
  | ok u => rfl
  | error f => cases f <;> rfl

theorem compiled_of_simulate (hargs : parseArguments args = .ok inv)
    (haction : inv.action = .compile target) (hrun : simulate args w = (0, w')) :
    (compileTarget target inv.output inv.style : Command (StateM World) Unit).run.run w = (.ok (), w') := by
  unfold simulate at hrun
  rw [run_start hargs haction] at hrun
  generalize ((compileTarget target inv.output inv.style : Command (StateM World) Unit).run.run w) = ran
    at hrun ⊢
  obtain ⟨r, after⟩ := ran
  cases r with
  | error f => simp at hrun
  | ok u =>
    obtain rfl : after = w' := by simpa using hrun
    rfl

/-- where a name with an extension leads, if it is not the directory above -/
theorem resolve_output {ext : String} {place : Location} (hroot : w.entry? [] = some .directory)
    (hname : Path.IsName name.toList) (hext : ext ≠ "") (hslash : '/' ∉ ext.toList)
    (hplace : w.resolve (Path.outputPath name ext) = .ok place)
    (hfile : w.entry? place ≠ some .directory) :
    place = World.home ++ [String.ofList (Path.bareName name.toList) ++ ("." ++ ext)] ∧
      Path.moduleName (Path.withExtension name "") = String.ofList (Path.bareName name.toList) := by
  have hfront : Path.IsFront [] := nofun
  have hhome {dir : Location} (h : w.walk (World.origin []) (Path.segments []) = .ok dir) :
      dir = World.home := (Except.ok.inj h).symm
  obtain hdots | ⟨hbare, hstem, hbase⟩ := Path.toList_outputPath rfl hfront hname hext
  · obtain ⟨dir, hdir, -, hsame⟩ := World.resolve_append hdots hfront (by decide) (by decide) hplace
    rw [hhome hdir] at hsame
    exact absurd (hsame ▸ hroot) hfile
  · have houtput := Path.isName_bareName hname (x := ext.toList) (by simpa using hext) hslash
    obtain ⟨dir, hdir, rfl⟩ := World.resolve_suffix hbare hfront houtput hplace
    refine ⟨by rw [hhome hdir], ?_⟩
    rw [Path.moduleName, hbase, Path.fileName?_append hfront hstem]
    rfl

/-- If a program is compiled under an output name and the run succeeds, two files in the working directory
are written, and nothing else is changed: they hold the header and the source file, and they are called
after the output name without its last two extensions. That is the name itself exactly if it has no point,
but perhaps at its beginning. -/
theorem output_named_by_stem (args : List String) (inv : Invocation) (target name : String)
    (w w' : World) (hargs : parseArguments args = .ok inv) (haction : inv.action = .compile target)
    (houtput : inv.output = some name) (hname : Path.IsName name.toList)
    (hroot : w.entry? [] = some .directory) (hrun : simulate args w = (0, w')) :
    let stem := String.ofList (Path.bareName name.toList)
    (∃ source files, textOf w target = .ok source ∧ (parse source).compile stem inv.style = .ok files ∧
      w'.entry? = Function.update
        (Function.update w.entry? (World.home ++ [stem ++ ".h"]) (some (.file files.header.toUTF8)))
        (World.home ++ [stem ++ ".c"]) (some (.file files.source.toUTF8))) ∧
    (stem = name ↔ '.' ∉ name.toList.tail) := by
  have hbase : baseOf w target (some name) = some (Path.withExtension name "") := rfl
  have hcompiled := compiled_of_simulate hargs haction hrun
  have houtcome := outcome_compileTarget w target inv.output inv.style
  rw [hcompiled, houtput, hbase] at houtcome
  constructor
  · cases houtcome with
    | nothing _ hnone => cases hnone rfl
    | both hb htext hfiles hheader hsource =>
      obtain rfl := Option.some.inj hb
      obtain ⟨place, hplace, hfile, hw⟩ := id hheader
      obtain ⟨place', hplace', hfile', hw'⟩ := hsource
      have hfree := fun hdir => hfile' (hheader.directory_iff.2 hdir)
      obtain ⟨rfl, hmodule⟩ := resolve_output hroot hname (by decide) (by decide) hplace hfile
      obtain ⟨rfl, -⟩ := resolve_output hroot hname (by decide) (by decide) (hheader.resolve.1 hplace') hfree
      rw [hmodule] at hfiles
      exact ⟨_, _, htext, hfiles, by rw [hw', hw]; rfl⟩
  · rw [← String.toList_inj, String.toList_ofList]
    exact Path.bareName_eq_self

theorem simulate_of_compiled (hargs : parseArguments args = .ok inv)
    (haction : inv.action = .compile target)
    (hrun : (compileTarget target inv.output inv.style : Command (StateM World) Unit).run.run w =
      (.ok (), w')) : simulate args w = (0, w') := by
  unfold simulate
  rw [run_start hargs haction, hrun]

namespace Samples

/-- a program, compiled under an output name -/
def underName (code name : String) : List String := ["-t", code, "-o", name]

def bareMachine : World := World.empty ⟨#[]⟩

end Samples

open CommandLine.Samples

theorem parseArguments_underName (code name : String) : parseArguments (underName code name) =
    .ok ⟨.compile code, some name, .script, .pragma, none⟩ := by
  rfl

theorem missing_of_none {w : World} {loc : Location} (h : w.entry? loc = none) :
    w.entry? loc ≠ some .directory := by
  rw [h]
  nofun

/-- a program that is no file is compiled under a name -/
theorem simulate_underName (code name : String) {w : World} {files : CFiles}
    {loc place place' : Location} (hloc : w.resolve code = .ok loc) (hnone : w.entry? loc = none)
    (hfiles : (parse code).compile (Path.moduleName (Path.withExtension name "")) .pragma = .ok files)
    (hheader : w.resolve (Path.outputPath name "h") = .ok place)
    (hheader' : w.entry? place ≠ some .directory)
    (hsource : w.resolve (Path.outputPath name "c") = .ok place')
    (hsource' : w.entry? place' ≠ some .directory) :
    ∃ w', simulate (underName code name) w = (0, w') ∧
      w'.entry? = Function.update (Function.update w.entry? place (some (.file files.header.toUTF8)))
        place' (some (.file files.source.toUTF8)) ∧
      ∀ path loc, w'.resolve path = .ok loc ↔ w.resolve path = .ok loc := by
  have hisFile : w.isFile code = false := by
    unfold World.isFile
    rw [hloc]
    dsimp only
    rw [hnone]
  have htext : textOf w code = .ok code := by rw [textOf, hisFile, if_neg Bool.false_ne_true]
  have hb : baseOf w code (some name) = some (Path.withExtension name "") := rfl
  obtain ⟨w', w'', hrun, hwrote, hwrote'⟩ :=
    compileTarget_ok htext hb hfiles hheader hheader' hsource hsource'
  refine ⟨w'', simulate_of_compiled (parseArguments_underName code name) rfl hrun, ?_,
    fun path loc => hwrote'.resolve.trans hwrote.resolve⟩
  obtain ⟨_, hplace', -, hw''⟩ := hwrote'
  rw [hwrote.resolve] at hplace'
  obtain ⟨_, hplace, -, hw'⟩ := hwrote
  obtain rfl := Except.ok.inj (hplace.symm.trans hheader)
  obtain rfl := Except.ok.inj (hplace'.symm.trans hsource)
  rw [hw'', hw']

/-- a name without a point is that of both files -/
theorem output_named_by_stem_demo : ∃ w' source, ∃ files : CFiles,
    simulate (underName "print(1)" "demo") bareMachine = (0, w') ∧
      (parse source).compile "demo" .pragma = .ok files ∧
      w'.entry? ["home", "demo.h"] = some (.file files.header.toUTF8) ∧
      w'.entry? ["home", "demo.c"] = some (.file files.source.toUTF8) := by
  have hfiles : (parse "print(1)").compile "demo" .pragma = .ok (printFiles "demo" "1") :=
    compile_print (by decide) (by decide)
  have hcode : bareMachine.resolve "print(1)" = .ok ["home", "print(1)"] := by rfl
  have hheader : bareMachine.resolve (Path.outputPath "demo" "h") = .ok ["home", "demo.h"] := by rfl
  have hsource : bareMachine.resolve (Path.outputPath "demo" "c") = .ok ["home", "demo.c"] := by rfl
  obtain ⟨w', hrun, -⟩ := simulate_underName "print(1)" "demo" hcode rfl hfiles hheader
    (missing_of_none rfl) hsource (missing_of_none rfl)
  obtain ⟨⟨source, files, -, hcompile, hentries⟩, hstem⟩ := output_named_by_stem _ _ "print(1)" "demo"
    bareMachine w' (parseArguments_underName "print(1)" "demo") rfl rfl (by decide) rfl hrun
  rw [hstem.2 (by decide)] at hcompile hentries
  refine ⟨w', source, files, hrun, hcompile, ?_, ?_⟩
  · rw [hentries, Function.update_of_ne (by decide)]
    exact Function.update_self ..
  · rw [hentries]
    exact Function.update_self ..

/-- an output name with a point is cut off at it, and the next one that is cut off there takes the files
over -/
theorem output_names_collide : ∃ w' w'',
    simulate (underName "print(1)" "a.b") bareMachine = (0, w') ∧
      w'.entry? ["home", "a.b.h"] = none ∧ w'.entry? ["home", "a.b.c"] = none ∧
      simulate (underName "print(2)" "a.c") w' = (0, w'') ∧
      w''.entry? ["home", "a.c"] ≠ w'.entry? ["home", "a.c"] := by
  have hfirst : (parse "print(1)").compile "a" .pragma = .ok (printFiles "a" "1") :=
    compile_print (by decide) (by decide)
  have hsecond : (parse "print(2)").compile "a" .pragma = .ok (printFiles "a" "2") :=
    compile_print (by decide) (by decide)
  have hone : bareMachine.resolve "print(1)" = .ok ["home", "print(1)"] := by rfl
  have htwo : bareMachine.resolve "print(2)" = .ok ["home", "print(2)"] := by rfl
  have hheader : bareMachine.resolve (Path.outputPath "a.b" "h") = .ok ["home", "a.h"] := by rfl
  have hsource : bareMachine.resolve (Path.outputPath "a.b" "c") = .ok ["home", "a.c"] := by rfl
  have hheader' : bareMachine.resolve (Path.outputPath "a.c" "h") = .ok ["home", "a.h"] := by rfl
  have hsource' : bareMachine.resolve (Path.outputPath "a.c" "c") = .ok ["home", "a.c"] := by rfl
  obtain ⟨w', hrun, hw', hresolve⟩ := simulate_underName "print(1)" "a.b" hone rfl hfirst hheader
    (missing_of_none rfl) hsource (missing_of_none rfl)
  have hw'h : w'.entry? ["home", "a.h"] = some (.file (printFiles "a" "1").header.toUTF8) := by
    rw [hw', Function.update_of_ne (by decide), Function.update_self]
  have hw'c : w'.entry? ["home", "a.c"] = some (.file (printFiles "a" "1").source.toUTF8) := by
    rw [hw', Function.update_self]
  have hrest {name : String} (h : name ≠ "a.h" ∧ name ≠ "a.c")
      (hnone : bareMachine.entry? ["home", name] = none) : w'.entry? ["home", name] = none := by
    rw [hw', Function.update_of_ne (by simpa using h.2), Function.update_of_ne (by simpa using h.1), hnone]
  obtain ⟨w'', hrun', hw'', -⟩ := simulate_underName "print(2)" "a.c" ((hresolve _ _).2 htwo)
    (hrest (by decide) rfl) hsecond ((hresolve _ _).2 hheader') (by rw [hw'h]; nofun)
    ((hresolve _ _).2 hsource') (by rw [hw'c]; nofun)
  refine ⟨w', w'', hrun, hrest (by decide) rfl, hrest (by decide) rfl, hrun', ?_⟩
  rw [hw'', Function.update_self, hw'c]
  intro hsame
  have htexts : (printFiles "a" "2").source = (printFiles "a" "1").source :=
    String.toByteArray_inj.1 (Entry.file.inj (Option.some.inj hsame))
  exact absurd htexts (by decide)

end AutoLang.CommandLine
