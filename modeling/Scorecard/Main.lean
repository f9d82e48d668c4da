import Scorecard.CommandLine.Execution

/-! The command line. -/
namespace Scorecard.CommandLine

/-- The contents of a file, or why they cannot be read. -/
def contentsOf (path : String) : IO (Except String String) := do
  try
    return .ok (← IO.FS.readFile path)
  catch
    | .noFileOrDirectory .. => return .error "No such file or directory (os error 2)"
    | e => return .error (toString e)

def report (outcome : Outcome) : IO UInt32 := do
  IO.print outcome.output
  IO.eprint outcome.errors
  return outcome.code.toUInt32

end Scorecard.CommandLine

open Scorecard.CommandLine

def main (arguments : List String) : IO UInt32 := do
  match Command.read false arguments with
  | .error e => report (.refused e)
  | .ok command =>
    let contents ← match command.path? with
      | some path => contentsOf path
      | none => pure (.ok "")
    report (command.run contents)
