import Cinder.Compiler.Log
import Cinder.Flow.Graphviz
import Cinder.Flow.Lower
import Cinder.Typing.Check

/-!
# Compilation

From the text of a program to a listing, a graph or assembly text.
-/

namespace Cinder

open Cinder.Flow Codegen

inductive Emit where
  /-- A listing of the flow graphs. -/
  | listing
  /-- The flow graphs as graph descriptions. -/
  | graphs
  | assembly
  /-- An executable, made from the assembly text by other programs. -/
  | executable
deriving DecidableEq, Repr

structure Presentation where
  emit : Emit
  debugInfo : Bool := false
  color : Bool := false
deriving DecidableEq, Repr

structure Output where
  text : String
  log : List Record := []

/-- The text of a module.  Only listings have colors; the others, and listings
without colors, have no control sequences. -/
def Flow.Module.present (m : Module) (presentation : Presentation) : Except Fault Output := do
  match presentation.emit with
  | .listing =>
    let listing ← m.listing
    return { text := if presentation.color then listing.toTerminal else listing.shown false }
  | .graphs => return { text := ← m.graphviz presentation.color }
  | .assembly | .executable =>
    let assembly ← assemble ⟨presentation.debugInfo, presentation.color⟩ m
    return ⟨assembly.text, assembly.routines.flatMap (Record.ofRoutine m.symbols)⟩

structure Accepted where
  program : Program.Typed
  /-- The symbols of the declarations of the program. -/
  symbols : SymbolTable

/-- Reads a program, which has to be well scoped and well typed and to have a
`main`. -/
def accept (text : String) : Except Failure Accepted := do
  let (program, symbols) ← Program.ofSource text
  program.requireMain
  return ⟨program, symbols⟩

structure Compiled where
  rounds : Nat
  output : String
  log : List Record

def compile (passes : List Pass) (presentation : Presentation) (text : String) :
    Except Failure Compiled := do
  let accepted ← accept text
  let m ← accepted.program.lower accepted.symbols
  let optimized ← m.optimize passes
  let output ← optimized.result.present presentation
  return {
    rounds := optimized.rounds
    output := output.text
    log := Record.ofProgram accepted.symbols.size accepted.program ++ Record.ofLowering m
      ++ Record.ofOptimization optimized ++ output.log }

end Cinder
