import Cinder.Codegen.Program
import Cinder.Flow.Optimize
import Cinder.Program.Basic

/-!
# Logs

What a compilation reports about its stages.  Every report is read off the result
of a stage.
-/

namespace Cinder

open Cinder.Flow Codegen

inductive Level where
  | trace
  | debug
  | info
deriving DecidableEq, Repr

namespace Level

def name : Level → String
  | trace => "TRACE"
  | debug => "DEBUG"
  | info => "INFO"

end Level

structure Record where
  level : Level
  message : String
deriving DecidableEq, Repr

namespace Record

def text (record : Record) : String :=
  s!"{record.level.name} {record.message}"

def ofProgram (symbols : Nat) (program : Program.Typed) : List Record :=
  [⟨.debug, s!"resolved {symbols} symbols"⟩]
    ++ program.functions.map (fun f => ⟨.debug, s!"type checking function `{f.name.name}`"⟩)
    ++ [⟨.debug, s!"checked {program.functions.length} functions"⟩]

def ofLowering (m : Module) : List Record :=
  m.functions.map fun f => ⟨.debug, s!"lowered `{f.name}` into {f.blocks.size} blocks"⟩

def ofChange (change : Change) : Record :=
  ⟨.debug, s!"{change.pass.name} changed block {blockName change.block} of `{change.function}`"⟩

def ofOptimization (optimized : Optimized) : List Record :=
  if optimized.rounds = 0 then []
  else optimized.changes.map ofChange
    ++ [⟨.info, s!"optimizations reached a fixpoint after {optimized.rounds} round(s)"⟩]

def ofRoutine (table : SymbolTable) (routine : Routine) : List Record :=
  let function := routine.function.name
  let spilled := routine.placement.spills.map fun (v, offset) =>
    ⟨.debug,
      s!"spilled `{table.nameOf v.symbol}` in `{function}` to {(Location.stack offset).text}"⟩
  let locations := routine.placement.locations.toList.map fun (v, location) =>
    s!"{table.nameOf v.symbol} -> {location.text}"
  let locations := ", ".intercalate locations
  spilled ++ [⟨.trace, s!"register map of `{function}`: {locations}"⟩,
    ⟨.debug, s!"generating `{function}` with a {routine.placement.frameSize} byte frame"⟩]

end Record

end Cinder
