import Cinder.CommandLine.Files
import Cinder.CommandLine.Options

/-!
# Runs

Carries out what a command line asks for.
-/

namespace Cinder

inductive RunError where
  | unreadable (path : String) (error : FileError)
  | unwritable (path : String) (error : FileError)
  /-- The program is wrong; holds the report about it. -/
  | rejected (report : Styled)
  | broken (fault : Fault)

namespace RunError

def message : RunError → Styled
  | unreadable path error => .plain s!"could not read `{path}`: {error.message}"
  | unwritable path error => .plain s!"could not write `{path}`: {error.message}"
  | rejected report => report
  | broken fault => .plain (fault.message?.getD "internal error")

end RunError

namespace Options

def build (options : Options) (contents : String) : Except RunError String :=
  match compile options.passList options.presentation contents with
  | .ok compiled => .ok compiled.output
  | .error (.broken fault) => .error (.broken fault)
  | .error (.rejected diagnostic) =>
    match diagnostic.report { contents, file := some options.sourceFile } with
    | some report => .error (.rejected report)
    | none => .error (.broken .outOfRange)

def run (options : Options) (dir : Directory) : Except RunError String := do
  let contents ← (dir.readText options.sourceFile).mapError (.unreadable options.sourceFile)
  let output ← options.build contents
  (dir.requireWritable options.outputPath).mapError (.unwritable options.outputPath)
  return output

end Options

end Cinder
