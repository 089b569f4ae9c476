import Cinder.CommandLine.Path
import Cinder.Compiler.Compile

/-!
# Options

The command line takes one source file and these options, in any order:

* `-o FILE`, `--output FILE`: where to write the result;
* `--emit KIND`: `ir`, `dot`, `asm` or `exe`;
* `--passes NAME,NAME,...`: the passes to run; may be repeated;
* `-O LEVEL`: `0` for no passes or `1` for all of them;
* `--debug-info`: show where variables live;
* `-h`, `--help` and `-V`, `--version`.

A value follows its option as the next word, after an equals sign, or directly
behind the letter of a short option.  After `--` every word is a file.
-/

namespace Cinder

open Cinder.Flow

inductive UsageError where
  | unknownArgument
  /-- A missing value, an empty path, or an unknown word. -/
  | invalidValue
  /-- A value of the wrong form. -/
  | valueValidation
  /-- Options that exclude each other, or one that is given twice. -/
  | argumentConflict
  | missingRequiredArgument
  /-- A value for an option that takes none. -/
  | tooManyValues
  | displayHelp
  | displayVersion
deriving DecidableEq, Repr

inductive Flag where
  | output
  | emit
  | passes
  | level
  | debugInfo
  | help
  | version
deriving DecidableEq, Repr

namespace Flag

def ofLong? : String → Option Flag
  | "output" => some output
  | "emit" => some emit
  | "passes" => some passes
  | "debug-info" => some debugInfo
  | "help" => some help
  | "version" => some version
  | _ => none

def ofShort? : Char → Option Flag
  | 'o' => some output
  | 'O' => some level
  | 'h' => some help
  | 'V' => some version
  | _ => none

def takesValue : Flag → Bool
  | output | emit | passes | level => true
  | debugInfo | help | version => false

end Flag

def Emit.ofName? : String → Option Emit
  | "ir" => some .listing
  | "dot" => some .graphs
  | "asm" => some .assembly
  | "exe" => some .executable
  | _ => none

def Emit.extension : Emit → String
  | .listing => "ir"
  | .graphs => "dot"
  | .assembly => "s"
  | .executable => ""

/-- An optimization level: an integer that is 0 or 1. -/
def levelOf? (text : String) : Option Nat :=
  let digits := match text.toList with
    | '+' :: rest => rest
    | '-' :: rest => rest
    | all => all
  let negative := text.toList.head? == some '-'
  if digits.isEmpty || !digits.all Char.isDigit then none
  else
    match (digits.dropWhile (· == '0')) with
    | [] => some 0
    | ['1'] => if negative then none else some 1
    | _ => none

structure Given where
  source : Option String := none
  output : Option String := none
  emit : Option Emit := none
  passes : Option (List Pass) := none
  level : Option Nat := none
  debugInfo : Bool := false

namespace Given

def path (text : String) : Except UsageError String :=
  if text = "" then .error .invalidValue else .ok text

/-- Takes the value of an option.  An option may be given once; only lists of
passes add up. -/
def take (given : Given) (flag : Flag) (value : String) : Except UsageError Given := do
  match flag with
  | .output =>
    if given.output.isSome then throw .argumentConflict
    return { given with output := some (← path value) }
  | .emit =>
    if given.emit.isSome then throw .argumentConflict
    match Emit.ofName? value with
    | some emit => return { given with emit := some emit }
    | none => throw .invalidValue
  | .passes =>
    match (value.splitOn ",").mapM Pass.ofName? with
    | some passes => return { given with passes := some (given.passes.getD [] ++ passes) }
    | none => throw .valueValidation
  | .level =>
    if given.level.isSome then throw .argumentConflict
    match levelOf? value with
    | some level => return { given with level := some level }
    | none => throw .valueValidation
  | _ => return given

def switch (given : Given) : Flag → Except UsageError Given
  | .debugInfo =>
    if given.debugInfo then throw .argumentConflict
    else return { given with debugInfo := true }
  | .help => throw .displayHelp
  | .version => throw .displayVersion
  | _ => return given

end Given

/-- A word of the command line that has not been judged yet. -/
inductive Pending where
  | nothing
  /-- An option that waits for its value. -/
  | option (flag : Flag)
  | value (flag : Flag) (value : String)
  | source (path : String)

/-- A command line that has been read in part.  A word is judged only when the
next one has been recognized, so an unknown word is reported before an earlier
bad value. -/
structure Reading where
  given : Given := {}
  pending : Pending := .nothing
  /-- Whether the source file has been seen. -/
  hasSource : Bool := false
  /-- Whether `--` has been seen. -/
  filesOnly : Bool := false

namespace Reading

def settle (reading : Reading) : Except UsageError Reading := do
  let given ← match reading.pending with
    | .nothing => pure reading.given
    | .option _ => throw .invalidValue
    | .value flag value => reading.given.take flag value
    | .source path => pure { reading.given with source := some (← Given.path path) }
  return { reading with given, pending := .nothing }

def option (reading : Reading) (flag : Flag) (attached : Option String) :
    Except UsageError Reading := do
  if flag.takesValue then
    let reading ← reading.settle
    match attached with
    | some value => return { reading with given := ← reading.given.take flag value }
    | none => return { reading with pending := .option flag }
  else if attached.isSome then throw .tooManyValues
  else
    let reading ← reading.settle
    return { reading with given := ← reading.given.switch flag }

def file (reading : Reading) (path : String) : Except UsageError Reading := do
  if reading.hasSource then throw .unknownArgument
  return { ← reading.settle with pending := .source path, hasSource := true }

def long (reading : Reading) (text : List Char) : Except UsageError Reading := do
  let name := String.ofList (text.takeWhile (· ≠ '='))
  let attached := match text.dropWhile (· ≠ '=') with
    | [] => none
    | _ :: value => some (String.ofList value)
  match Flag.ofLong? name with
  | some flag => reading.option flag attached
  | none => throw .unknownArgument

/-- Reads the letters of short options, without the dash.  A letter that takes a
value takes all that follows. -/
def short (reading : Reading) : List Char → Except UsageError Reading
  | [] => return reading
  | letter :: rest =>
    match Flag.ofShort? letter with
    | none => throw .unknownArgument
    | some flag =>
      if flag.takesValue then
        reading.option flag <| match rest with
          | [] => none
          | '=' :: value => some (String.ofList value)
          | value => some (String.ofList value)
      else do
        short (← reading.option flag none) rest

def word (reading : Reading) (text : String) : Except UsageError Reading :=
  if reading.filesOnly then reading.file text
  else match text.toList with
    | ['-', '-'] => return { reading with filesOnly := true }
    | '-' :: '-' :: rest => reading.long rest
    | ['-'] => plain
    | '-' :: rest => reading.short rest
    | _ => plain
where
  plain : Except UsageError Reading :=
    match reading.pending with
    | .option flag => return { reading with pending := .value flag text }
    | _ => reading.file text

end Reading

structure Options where
  sourceFile : String
  output : Option String
  emit : Emit
  passes : Option (List Pass)
  level : Nat
  debugInfo : Bool

namespace Options

/-- Reads a command line.  A list of passes excludes an optimization level. -/
def parse (words : List String) : Except UsageError Options := do
  let reading ← words.foldlM Reading.word {}
  let { given, .. } ← reading.settle
  if given.passes.isSome && given.level.isSome then throw .argumentConflict
  match given.source with
  | none => throw .missingRequiredArgument
  | some sourceFile =>
    return {
      sourceFile
      output := given.output
      emit := given.emit.getD .assembly
      passes := given.passes
      level := given.level.getD 1
      debugInfo := given.debugInfo }

def outputPath (options : Options) : String :=
  options.output.getD (Path.withExtension options.sourceFile options.emit.extension)

def passList (options : Options) : List Pass :=
  match options.passes, options.level with
  | some passes, _ => passes
  | none, 0 => []
  | none, _ => Pass.all

def presentation (options : Options) : Presentation :=
  { emit := options.emit, debugInfo := options.debugInfo }

end Options

end Cinder
