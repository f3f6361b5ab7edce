import AutoLang.Proofs.CommandLine.Outputs
import Mathlib

/-! What becomes of the file that is compiled. Two files are written, and nothing keeps them from being
the one that was read. On a machine without links a path leads to the same file only if it has the same
directories in front and ends in the same name; a link would be one more way to it. -/

namespace AutoLang.CommandLine

variable {w : World} {target : String} {loc : Location} {bytes : ByteArray}

theorem isFile_of_entry? (hloc : w.resolve target = .ok loc) (hfile : w.entry? loc = some (.file bytes)) :
    w.isFile target = true := by
  unfold World.isFile
  rw [hloc]
  dsimp only
  rw [hfile]

/-- the text that is in a file is the one that is compiled -/
theorem textOf_of_file {text : String} (hloc : w.resolve target = .ok loc)
    (hfile : w.entry? loc = some (.file text.toUTF8)) : textOf w target = .ok text := by
  have hisFile := isFile_of_entry? hloc hfile
  rw [textOf, if_pos hisFile, World.read_eq_ok hloc hfile]

/-- a path that gets another extension leads to the same file only if it is the same path -/
theorem resolve_outputPath {front name : List Char} {ext : String} (hpath : target.toList = front ++ name)
    (hf : Path.IsFront front) (hname : Path.IsName name) (hext : ext ≠ "") (hslash : '/' ∉ ext.toList)
    (hloc : w.resolve target = .ok loc) :
    w.resolve (Path.outputPath target ext) = .ok loc ↔
      (Path.outputPath target ext).toList = front ++ name := by
  constructor
  · intro hout
    obtain ⟨dir, hdir, rfl⟩ := World.resolve_name hpath hf hname hloc
    obtain hdots | ⟨hbare, -, -⟩ := Path.toList_outputPath hpath hf hname hext
    · obtain ⟨dir', hdir', -, hsame⟩ := World.resolve_append hdots hf (by decide) (by decide) hout
      obtain rfl := Except.ok.inj (hdir.symm.trans hdir')
      rw [if_neg (by decide), if_pos rfl] at hsame
      have := congrArg List.length hsame
      simp at this
      omega
    · have hother := Path.isName_bareName hname (x := ext.toList) (by simpa using hext) hslash
      obtain ⟨dir', hdir', hsame⟩ := World.resolve_name hbare hf hother hout
      obtain rfl := Except.ok.inj (hdir.symm.trans hdir')
      have hlast := List.append_cancel_left hsame
      simp only [List.cons.injEq, and_true, String.ofList_inj] at hlast
      rw [hbare, ← hlast]
  · intro hsame
    have hsame : Path.outputPath target ext = target := String.toList_inj.1 (hsame.trans hpath.symm)
    exact hsame.symm ▸ hloc

/-- however compiling ends, a file is left as it was or one of the outputs is written over it -/
theorem Outcome.kept_or_written {b : String} {style : C.GuardStyle} {r : Except Failure Unit}
    {after : World} (h : Outcome w target (some b) style r after)
    (hfile : w.entry? loc = some (.file bytes)) :
    after.entry? loc = some (.file bytes) ∨
      ∃ source files, textOf w target = .ok source ∧
        (parse source).compile (Path.moduleName b) style = .ok files ∧
        ∃ out ∈ [("h", files.header), ("c", files.source)],
          w.resolve (Path.withExtension b out.1) = .ok loc ∧
          after.entry? loc = some (.file out.2.toUTF8) := by
  cases h with
  | nothing hsame => exact .inl (hsame ▸ hfile)
  | header hb htext hfiles hheader =>
    obtain rfl := Option.some.inj hb
    obtain ⟨hplace, hnew⟩ | hsame := hheader.entry_cases loc
    · exact .inr ⟨_, _, htext, hfiles, _, List.mem_cons_self, hplace, hnew⟩
    · exact .inl (hsame.trans hfile)
  | both hb htext hfiles hheader hsource =>
    obtain rfl := Option.some.inj hb
    obtain ⟨hplace, hnew⟩ | hsame := hsource.entry_cases loc
    · exact .inr ⟨_, _, htext, hfiles, _, List.mem_cons_of_mem _ List.mem_cons_self,
        hheader.resolve.1 hplace, hnew⟩
    · obtain ⟨hplace, hnew⟩ | hsame' := hheader.entry_cases loc
      · exact .inr ⟨_, _, htext, hfiles, _, List.mem_cons_self, hplace, hsame.trans hnew⟩
      · exact .inl ((hsame.trans hsame').trans hfile)

/-- Whatever is compiled, and whatever the output is named: the file that was compiled is left as it was,
or one of the two output paths leads to it, and then it holds the text that was generated. Without an
output name these paths lead to it exactly if its name is a stem with the extension `h` or `c` and the
stem has no extension of its own. -/
theorem target_kept (w : World) (target : String) (loc : Location) (bytes : ByteArray)
    (hloc : w.resolve target = .ok loc) (hfile : w.entry? loc = some (.file bytes))
    (output : Option String) (style : C.GuardStyle) :
    let after := ((compileTarget target output style : Command (StateM World) Unit).run.run w).2
    (after.entry? loc = some (.file bytes) ∨
      ∃ source files, w.read target = .ok source ∧
        (parse source).compile (Path.moduleName (Path.withExtension (output.getD target) "")) style =
          .ok files ∧
        ∃ out ∈ [("h", files.header), ("c", files.source)],
          w.resolve (Path.outputPath (output.getD target) out.1) = .ok loc ∧
          after.entry? loc = some (.file out.2.toUTF8)) ∧
    ∀ name, Path.fileName? target.toList = some name → ∀ ext ∈ ["h", "c"],
      (w.resolve (Path.outputPath target ext) = .ok loc ↔
        ∃ stem, stem ≠ [] ∧ stem ≠ ['.'] ∧ '.' ∉ stem.tail ∧ name = stem ++ '.' :: ext.toList) := by
  have hisFile := isFile_of_entry? hloc hfile
  have hbase : baseOf w target output = some (Path.withExtension (output.getD target) "") := by
    rw [baseOf, hisFile]
    cases output <;> rfl
  dsimp only
  constructor
  · have houtcome := outcome_compileTarget w target output style
    rw [hbase] at houtcome
    refine (houtcome.kept_or_written hfile).imp_right ?_
    rintro ⟨source, files, htext, hfiles, hwritten⟩
    rw [textOf, if_pos hisFile] at htext
    exact ⟨source, files, htext, hfiles, hwritten⟩
  · intro name hname ext hext
    obtain ⟨front, hf, hisName, hpath⟩ := World.exists_front hloc hfile hname
    have hplain : ∀ ext ∈ ["h", "c"], ext ≠ "" ∧ '/' ∉ ext.toList ∧ '.' ∉ ext.toList := by decide
    obtain ⟨hne, hslash, hpoint⟩ := hplain ext hext
    rw [resolve_outputPath hpath hf hisName hne hslash hloc,
      Path.outputPath_eq_self hpath hf hisName hne hpoint]

namespace Samples

/-- a machine with one file in the working directory -/
def oneFile (name text : String) : World :=
  (World.empty ⟨#[]⟩).putFile (World.home ++ [name]) text.toUTF8

def printOne : String := "print(1)"

/-- what becomes of a program that prints a number -/
def printFiles (name number : String) : CFiles :=
  ⟨"#pragma once\n\n#include <stdio.h>\n\nint main(void);\n",
    "#include \"" ++ name ++ ".h\"\n\nint main(void) \x7b\n    printf(\"%d\\n\", " ++ number ++
      ");\n    return 0;\n\x7d\n"⟩

end Samples

open CommandLine.Samples

/-- the programs are all run at once -/
theorem compile_print {code name number : String}
    (hcode : (code, number) ∈ [("print(1)", "1"), ("print(2)", "2")])
    (hname : name ∈ ["foo", "demo", "a", "a\nb"]) :
    (parse code).compile name .pragma = .ok (printFiles name number) := by
  have hruns : ∀ p ∈ [("print(1)", "1"), ("print(2)", "2")],
      Parse.runsClean 60 p.1 Lexer.defaultMarker = true ∧
        (Lexer.runTokens? 60 p.1 Lexer.defaultMarker).isSome = true ∧
        ∀ name ∈ ["foo", "demo", "a", "a\nb"], (compileCode (Parse.code.run (.ofTokens
          ((Lexer.runTokens? 60 p.1 Lexer.defaultMarker).getD []))).1 name .pragma).1 =
            .ok (printFiles name p.2) := by
    decide +kernel
  obtain ⟨clean, lexed, files⟩ := hruns _ hcode
  exact compile_of_runTokens clean lexed (files name hname)

theorem entry?_oneFile (name text : String) :
    World.entry? (oneFile name text) (World.home ++ [name]) = some (.file text.toUTF8) := by
  rw [oneFile, World.putFile, World.entry?_put, Function.update_self]

/-- an input with an extension of its own is kept -/
theorem target_kept_source_file :
    World.entry? ((compileTarget "foo.at" none .pragma : Command (StateM World) Unit).run.run
      (oneFile "foo.at" printOne)).2 ["home", "foo.at"] = some (.file printOne.toUTF8) := by
  have hloc : (oneFile "foo.at" printOne).resolve "foo.at" = .ok ["home", "foo.at"] := by rfl
  obtain ⟨hkept | ⟨_, _, -, -, out, hout, hplace, -⟩, hname⟩ := target_kept
    (oneFile "foo.at" printOne) "foo.at" _ _ hloc (entry?_oneFile "foo.at" printOne) none .pragma
  · exact hkept
  · -- neither output path leads back to it
    have hfileName : Path.fileName? "foo.at".toList = some "foo.at".toList := by rfl
    rcases List.mem_cons.1 hout with rfl | hout
    · obtain ⟨stem, -, -, -, hstem⟩ := (hname _ hfileName "h" (by decide)).1 hplace
      have hlast := congrArg List.getLast? hstem
      simp at hlast
    · obtain rfl := List.mem_singleton.1 hout
      obtain ⟨stem, -, -, -, hstem⟩ := (hname _ hfileName "c" (by decide)).1 hplace
      have hlast := congrArg List.getLast? hstem
      simp at hlast

/-- an input that is called as one of the outputs is overwritten -/
theorem target_overwritten : ¬ ∀ (w : World) (target : String) (loc : Location) (bytes : ByteArray),
    w.resolve target = .ok loc → w.entry? loc = some (.file bytes) →
    ∀ (output : Option String), (∀ name ∈ output, w.resolve name ≠ .ok loc) → ∀ style : C.GuardStyle,
      World.entry? ((compileTarget target output style : Command (StateM World) Unit).run.run w).2 loc =
        some (.file bytes) := by
  intro h
  let w := oneFile "foo.c" printOne
  have hloc : w.resolve "foo.c" = .ok ["home", "foo.c"] := by rfl
  have hfile : w.entry? ["home", "foo.c"] = some (.file printOne.toUTF8) :=
    entry?_oneFile "foo.c" printOne
  have hisFile := isFile_of_entry? hloc hfile
  have htext := textOf_of_file hloc hfile
  have hb : baseOf w "foo.c" none = some "foo" := by
    rw [baseOf, if_pos hisFile]
    rfl
  have hheader : w.resolve (Path.withExtension "foo" "h") = .ok ["home", "foo.h"] := by rfl
  have hsource : w.resolve (Path.withExtension "foo" "c") = .ok ["home", "foo.c"] := by rfl
  have hnew : w.entry? ["home", "foo.h"] = none := rfl
  have hfiles : (parse printOne).compile "foo" .pragma = .ok (printFiles "foo" "1") :=
    compile_print (by decide) (by decide)
  obtain ⟨w', w'', hrun, hwrote, hwrote'⟩ := compileTarget_ok htext hb hfiles hheader
    (by rw [hnew]; nofun) hsource (by rw [hfile]; nofun)
  have hkept := h w "foo.c" _ _ hloc hfile none nofun .pragma
  obtain ⟨place, hplace, -, hw''⟩ := hwrote'
  obtain rfl := Except.ok.inj ((hwrote.resolve.1 hplace).symm.trans hsource)
  rw [hrun, hw'', Function.update_self] at hkept
  have hsame : (printFiles "foo" "1").source = printOne :=
    String.toByteArray_inj.1 (Entry.file.inj (Option.some.inj hkept))
  exact absurd hsame (by decide)

end AutoLang.CommandLine
