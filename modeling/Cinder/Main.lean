import Cinder.CommandLine.Run
import Cinder.Machine.Toolchain

/-!
# The command line program

Reads the source file, compiles it, and writes the result.
-/

open Cinder

namespace Cinder.Main

def usage : String :=
  "usage: cinderc [-o FILE] [--emit ir|dot|asm|exe] [--passes NAME,...] [-O 0|1] " ++
    "[--debug-info] FILE"

def complain : UsageError → String
  | .unknownArgument => "unexpected argument"
  | .invalidValue => "missing or invalid value"
  | .valueValidation => "value of the wrong form"
  | .argumentConflict => "arguments that cannot be used together"
  | .missingRequiredArgument => "no source file"
  | .tooManyValues => "value for an option that takes none"
  | .displayHelp | .displayVersion => ""

def toolchain (assembly output : String) : List Machine.Command :=
  let object := Path.withExtension assembly "o"
  [Machine.assemblerCommand assembly object, Machine.linkerCommand object output]

/-- Writes the result.  An executable takes two more commands, which are shown. -/
def deliver (options : Options) (text : String) : IO Unit := do
  match options.emit with
  | .executable =>
    let assembly := options.outputPath ++ ".s"
    IO.FS.writeFile assembly text
    for command in toolchain assembly options.outputPath do
      IO.println (" ".intercalate (command.program :: command.arguments))
  | _ => IO.FS.writeFile options.outputPath text

def readSource (options : Options) : IO (Except RunError String) := do
  match String.fromUTF8? (← IO.FS.readBinFile options.sourceFile) with
  | some contents => return .ok contents
  | none => return .error (.unreadable options.sourceFile .notText)

def run (options : Options) : IO UInt32 := do
  try
    match (← readSource options).bind options.build with
    | .ok text =>
      deliver options text
      return 0
    | .error error =>
      IO.eprintln error.message.toPlain
      return 1
  catch error =>
    IO.eprintln s!"error: {error}"
    return 1

end Cinder.Main

def main (args : List String) : IO UInt32 := do
  match Options.parse args with
  | .ok options => Main.run options
  | .error .displayHelp =>
    IO.println Main.usage
    return 0
  | .error .displayVersion =>
    IO.println "cinderc 0.1.0"
    return 0
  | .error error =>
    IO.eprintln s!"error: {Main.complain error}"
    IO.eprintln Main.usage
    return 2
