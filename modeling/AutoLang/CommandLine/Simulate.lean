import AutoLang.CommandLine.Run
import AutoLang.CommandLine.World
/-! The whole program over a machine that is a value. -/

namespace AutoLang.CommandLine

/-- run a command line to its end: the exit code and the machine after it -/
def simulate (args : List String) (w : World) : Nat × World :=
  match (start args : StateM World Course).run w with
  | (.exit code, after) => (code, after)
  | (.interactive, after) =>
    let session : StateM World Nat := do
      Host.say greeting
      converse after.lines
    session.run after

end AutoLang.CommandLine
