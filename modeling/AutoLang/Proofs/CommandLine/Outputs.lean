import AutoLang.CommandLine.Simulate
import AutoLang.Proofs.C.Declarations
import AutoLang.Proofs.CommandLine.Files
import Mathlib

/-! What the compiler does to the files of a machine. It may end before it writes anything, behind the
header or behind the source file, and each file that is written changes what stands where its path
leads. -/

namespace AutoLang

/-- a text that is compiled has no problems -/
theorem Parsed.clean_of_compile {p : Parsed} {name : String} {style : C.GuardStyle} {files : CFiles}
    (h : p.compile name style = .ok files) :
    p.diagnostics = [] ∧ (compileCode p.code name style).1 = .ok files := by
  unfold Parsed.compile Parsed.rejection? at h
  cases htokens : p.tokenErrors with
  | cons d ds => simp [htokens] at h
  | nil =>
    cases herrors : p.errors with
    | cons d ds => simp [htokens, herrors] at h
    | nil =>
      refine ⟨by rw [Parsed.diagnostics, htokens, herrors, List.append_nil], ?_⟩
      simp only [htokens, herrors] at h
      cases hfiles : (compileCode p.code name style).1 with
      | error u => simp [hfiles] at h
      | ok files' => simpa [hfiles] using h

/-- what a text is compiled to, as far as the fuel lasts -/
theorem compile_of_runTokens {fuel : ℕ} {source name : String} {style : C.GuardStyle} {files : CFiles}
    (clean : Parse.runsClean fuel source Lexer.defaultMarker = true)
    (lexed : (Lexer.runTokens? fuel source Lexer.defaultMarker).isSome = true)
    (hfiles : (compileCode (Parse.code.run (.ofTokens
      ((Lexer.runTokens? fuel source Lexer.defaultMarker).getD []))).1 name style).1 = .ok files) :
    (parse source).compile name style = .ok files := by
  rw [← Parse.code_parse_of_runTokens lexed] at hfiles
  exact Parsed.compile_of_clean (Parse.diagnostics_parse_of_runsClean clean) hfiles

namespace CommandLine

section Runs

variable {α β : Type} {m : Type → Type} [Monad m] [Host m]

theorem run_bind (x : Command (StateM World) α) (g : α → Command (StateM World) β) (w : World) :
    (x >>= g).run.run w =
      match x.run.run w with
      | (.ok a, w') => (g a).run.run w'
      | (.error f, w') => (.error f, w') := by
  change (ExceptT.bindCont g (x.run.run w).1).run (x.run.run w).2 = _
  obtain ⟨r, w'⟩ := x.run.run w
  cases r <;> rfl

/-- compile a text, and write what comes of it if there is a base for the names of the files -/
def compileText (source : String) (base : Option String) (style : C.GuardStyle) : Command m Unit := do
  let name := (base.map Path.moduleName).getD Path.defaultName
  let parsed := parse source
  report source parsed.diagnostics
  match parsed.compile name style, base with
  | .error why, _ => throw (.unsupported why.message)
  | .ok files, some base =>
    generate (Path.withExtension base "h") files.header
    generate (Path.withExtension base "c") files.source
  | .ok files, none =>
    say "=== Generated C Code ===\n\n"
    say s!"--- Header (.h) ---\n{files.header}\n"
    say s!"--- Source (.c) ---\n{files.source}\n"

theorem compileTarget_eq (target : String) (output : Option String) (style : C.GuardStyle) :
    (compileTarget target output style : Command m Unit) = (do
      let isFile ← ExceptT.lift (Host.isFile target)
      let source ← if isFile then readFile target else pure target
      compileText source ((output.or (if isFile then some target else none)).map
        (Path.withExtension · "")) style) := rfl

variable {w : World}

theorem run_readFile (path : String) (w : World) :
    (readFile path : Command (StateM World) String).run.run w =
      ((w.read path).mapError (Failure.read path), w) := by
  have hread : (ExceptT.lift (Host.read path) : Command (StateM World) _).run.run w =
      (.ok (w.read path), w) := rfl
  unfold readFile
  rw [run_bind, hread]
  cases w.read path <;> rfl

theorem run_generate (path text : String) (w : World) :
    (generate path text : Command (StateM World) Unit).run.run w =
      match w.write path text with
      | .ok w' => (.ok (), { w' with stdout := w'.stdout ++ s!"Generated: {path}\n" })
      | .error fault => (.error (.write path fault), w) := by
  have hwrite : (writeFile path text : Command (StateM World) Unit).run.run w =
      match w.write path text with
      | .ok w' => (.ok (), w')
      | .error fault => (.error (.write path fault), w) := by
    have hhost : (Host.write path text : StateM World (Except FileFault Unit)).run w =
        match w.write path text with
        | .ok w' => (.ok (), w')
        | .error fault => (.error fault, w) := by
      change (match w.write path text with
        | .ok w' => (do set w'; return .ok () : StateM World (Except FileFault Unit))
        | .error fault => return .error fault).run w = _
      cases w.write path text <;> rfl
    have hlift : (ExceptT.lift (Host.write path text) : Command (StateM World) _).run.run w =
        (.ok ((Host.write path text : StateM World (Except FileFault Unit)).run w).1,
          ((Host.write path text : StateM World (Except FileFault Unit)).run w).2) := rfl
    unfold writeFile
    rw [run_bind, hlift, hhost]
    cases w.write path text <;> rfl
  unfold generate
  rw [run_bind, hwrite]
  cases w.write path text <;> rfl

/-- a text that is not accepted is reported, and nothing is written -/
theorem run_compileText_error {source : String} {base : Option String} {style : C.GuardStyle}
    {why : Rejection}
    (h : (parse source).compile ((base.map Path.moduleName).getD Path.defaultName) style = .error why)
    (w : World) : ∃ f w', (compileText source base style : Command (StateM World) Unit).run.run w =
      (.error f, w') ∧ w'.entries = w.entries := by
  unfold compileText
  simp only [h]
  rw [run_bind]
  unfold report
  cases hds : (parse source).diagnostics.isEmpty with
  | true => exact ⟨_, w, rfl, rfl⟩
  | false => exact ⟨.reported, _, rfl, rfl⟩

theorem run_report_of_compile {source name : String} {style : C.GuardStyle} {files : CFiles}
    (h : (parse source).compile name style = .ok files) (w : World) :
    (report source (parse source).diagnostics : Command (StateM World) Unit).run.run w = (.ok (), w) := by
  rw [(Parsed.clean_of_compile h).1]
  rfl

theorem run_compileText_some {source base : String} {style : C.GuardStyle} {files : CFiles}
    (h : (parse source).compile (Path.moduleName base) style = .ok files) (w : World) :
    (compileText source (some base) style : Command (StateM World) Unit).run.run w =
      (do generate (Path.withExtension base "h") files.header
          generate (Path.withExtension base "c") files.source :
        Command (StateM World) Unit).run.run w := by
  unfold compileText
  simp only [Option.map_some, Option.getD_some, h]
  rw [run_bind, run_report_of_compile h]

/-- without a base the text is printed -/
theorem run_compileText_none {source : String} {style : C.GuardStyle} {files : CFiles}
    (h : (parse source).compile Path.defaultName style = .ok files) (w : World) :
    ((compileText source none style : Command (StateM World) Unit).run.run w).2.entries = w.entries := by
  unfold compileText
  simp only [Option.map_none, Option.getD_none, h]
  rw [run_bind, run_report_of_compile h]
  rfl

/-- writing a file ends in a failure, or the file is there and nothing else changed -/
theorem generate_cases (path text : String) (w : World) :
    (∃ f, (generate path text : Command (StateM World) Unit).run.run w = (.error f, w)) ∨
      ∃ w', (generate path text : Command (StateM World) Unit).run.run w = (.ok (), w') ∧
        World.Wrote path text w w' := by
  rw [run_generate]
  cases hwrite : w.write path text with
  | error fault => exact .inl ⟨_, rfl⟩
  | ok w' =>
    obtain ⟨place, hplace, hfile, hw'⟩ := World.wrote_of_write hwrite
    exact .inr ⟨_, rfl, place, hplace, hfile, hw'⟩

theorem generate_ok {path : String} {place : Location} (text : String) (hplace : w.resolve path = .ok place)
    (hfile : w.entry? place ≠ some .directory) :
    ∃ w', (generate path text : Command (StateM World) Unit).run.run w = (.ok (), w') ∧
      World.Wrote path text w w' := by
  obtain ⟨f, hrun⟩ | hok := generate_cases path text w
  · obtain ⟨w', hwrite⟩ := World.exists_write text hplace hfile
    rw [run_generate, hwrite] at hrun
    cases hrun
  · exact hok

end Runs

/-- the text that is compiled: that of the file, if there is one -/
def textOf (w : World) (target : String) : Except FileFault String :=
  if w.isFile target then w.read target else .ok target

/-- what the files that are written are named after -/
def baseOf (w : World) (target : String) (output : Option String) : Option String :=
  (output.or (if w.isFile target then some target else none)).map (Path.withExtension · "")

/-- how compiling can end: without a file, behind the header, or with both files -/
inductive Outcome (w : World) (target : String) (base : Option String) (style : C.GuardStyle) :
    Except Failure Unit → World → Prop
  | nothing {r : Except Failure Unit} {w' : World} : w'.entry? = w.entry? →
    (r = .ok () → base = none) → Outcome w target base style r w'
  | header {b source : String} {files : CFiles} {f : Failure} {w' : World} : base = some b →
    textOf w target = .ok source → (parse source).compile (Path.moduleName b) style = .ok files →
    World.Wrote (Path.withExtension b "h") files.header w w' →
    Outcome w target base style (.error f) w'
  | both {b source : String} {files : CFiles} {w' w'' : World} : base = some b →
    textOf w target = .ok source → (parse source).compile (Path.moduleName b) style = .ok files →
    World.Wrote (Path.withExtension b "h") files.header w w' →
    World.Wrote (Path.withExtension b "c") files.source w' w'' →
    Outcome w target base style (.ok ()) w''

theorem outcome_compileText {w : World} {target source : String} {base : Option String}
    {style : C.GuardStyle} (htext : textOf w target = .ok source) :
    Outcome w target base style
      ((compileText source base style : Command (StateM World) Unit).run.run w).1
      ((compileText source base style : Command (StateM World) Unit).run.run w).2 := by
  cases hfiles : (parse source).compile ((base.map Path.moduleName).getD Path.defaultName) style with
  | error why =>
    obtain ⟨f, w', hrun, hentries⟩ := run_compileText_error hfiles w
    rw [hrun]
    exact .nothing (World.entry?_congr hentries) nofun
  | ok files =>
    cases base with
    | none => exact .nothing (World.entry?_congr (run_compileText_none hfiles w)) fun _ => rfl
    | some b =>
      rw [run_compileText_some hfiles, run_bind]
      obtain ⟨f, hheader⟩ | ⟨w', hheader, hwrote⟩ :=
        generate_cases (Path.withExtension b "h") files.header w
      · rw [hheader]
        exact .nothing rfl nofun
      · rw [hheader]
        dsimp only
        obtain ⟨f, hsource⟩ | ⟨w'', hsource, hwrote'⟩ :=
          generate_cases (Path.withExtension b "c") files.source w'
        · rw [hsource]
          exact .header rfl htext hfiles hwrote
        · rw [hsource]
          exact .both rfl htext hfiles hwrote hwrote'

theorem run_compileTarget (target : String) (output : Option String) (style : C.GuardStyle)
    (w : World) : (compileTarget target output style : Command (StateM World) Unit).run.run w =
      match textOf w target with
      | .ok source => (compileText source (baseOf w target output) style :
          Command (StateM World) Unit).run.run w
      | .error fault => (.error (.read target fault), w) := by
  have hisFile : (ExceptT.lift (Host.isFile target) : Command (StateM World) Bool).run.run w =
      (.ok (w.isFile target), w) := rfl
  rw [compileTarget_eq, run_bind, hisFile]
  unfold textOf baseOf
  cases hfile : w.isFile target with
  | true =>
    simp only [if_true]
    rw [run_bind, run_readFile]
    cases w.read target <;> rfl
  | false => simp only [Bool.false_eq_true, if_false, pure_bind]

theorem outcome_compileTarget (w : World) (target : String) (output : Option String)
    (style : C.GuardStyle) :
    Outcome w target (baseOf w target output) style
      ((compileTarget target output style : Command (StateM World) Unit).run.run w).1
      ((compileTarget target output style : Command (StateM World) Unit).run.run w).2 := by
  rw [run_compileTarget]
  cases htext : textOf w target with
  | error fault => exact .nothing rfl nofun
  | ok source => exact outcome_compileText htext

/-- a text that is accepted is compiled to both files if neither path leads to a directory -/
theorem compileTarget_ok {w : World} {target source b : String} {output : Option String}
    {style : C.GuardStyle} {files : CFiles} {place place' : Location}
    (htext : textOf w target = .ok source) (hb : baseOf w target output = some b)
    (hfiles : (parse source).compile (Path.moduleName b) style = .ok files)
    (hheader : w.resolve (Path.withExtension b "h") = .ok place)
    (hheader' : w.entry? place ≠ some .directory)
    (hsource : w.resolve (Path.withExtension b "c") = .ok place')
    (hsource' : w.entry? place' ≠ some .directory) :
    ∃ w' w'', (compileTarget target output style : Command (StateM World) Unit).run.run w =
      (.ok (), w'') ∧ World.Wrote (Path.withExtension b "h") files.header w w' ∧
        World.Wrote (Path.withExtension b "c") files.source w' w'' := by
  obtain ⟨w', hrun, hwrote⟩ := generate_ok files.header hheader hheader'
  obtain ⟨w'', hrun', hwrote'⟩ := generate_ok files.source (hwrote.resolve.2 hsource)
    fun hdir => hsource' (hwrote.directory_iff.1 hdir)
  refine ⟨w', w'', ?_, hwrote, hwrote'⟩
  rw [run_compileTarget, htext, hb]
  dsimp only
  rw [run_compileText_some hfiles, run_bind, hrun]
  exact hrun'

end CommandLine

end AutoLang
