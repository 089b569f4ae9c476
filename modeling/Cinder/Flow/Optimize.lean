import Cinder.Flow.Pass.Branches
import Cinder.Flow.Pass.DeadCode
import Cinder.Flow.Pass.Folding
import Cinder.Flow.Pass.Propagation

/-!
# Optimization

Passes change one block at a time.  In every round all passes visit all blocks of
all functions; rounds are repeated until one of them changes nothing.
-/

namespace Cinder.Flow

inductive Pass where
  | folding
  | propagation
  | deadCode
  | branches
deriving DecidableEq, Repr

namespace Pass

def all : List Pass :=
  [folding, propagation, deadCode, branches]

def name : Pass → String
  | folding => "constant-folding"
  | propagation => "constant-propagation"
  | deadCode => "dead-code-elimination"
  | branches => "simplify-cfg"

def ofName? (text : String) : Option Pass :=
  all.find? fun pass => pass.name == text

theorem ofName?_name (pass : Pass) : ofName? pass.name = some pass := by
  cases pass <;> decide

/-- Runs a pass on a block and tells whether it changed the block.  `used` holds
the variables that the function reads.  Mending the links of a dead end is not
counted as a change. -/
def runOn (pass : Pass) (table : SymbolTable) (used : VariableSet) (f : Function) (id : BlockId) :
    Except Fault (Function × Bool) := do
  let block ← f.block id
  match pass with
  | .folding => return (f.setBlock id block.fold, block.fold ≠ block)
  | .propagation => return (f.setBlock id (block.propagate table), block.propagate table ≠ block)
  | .deadCode =>
    let pruned := block.prune table used
    return (f.setBlock id pruned, pruned.instructions.length ≠ block.instructions.length)
  | .branches => f.simplify id

end Pass

structure Change where
  pass : Pass
  block : BlockId
  function : String
deriving DecidableEq, Repr

namespace Function

def visit (table : SymbolTable) (used : VariableSet) (state : Function × List Change)
    (step : BlockId × Pass) : Except Fault (Function × List Change) := do
  let (f, changes) := state
  let (id, pass) := step
  let (f, changed) ← pass.runOn table used f id
  return (f, if changed then changes ++ [⟨pass, id, f.name⟩] else changes)

def round (passes : List Pass) (table : SymbolTable) (f : Function) :
    Except Fault (Function × List Change) := do
  let order ← f.order
  let used ← f.used
  let steps := order.flatMap fun id => passes.map fun pass => (id, pass)
  steps.foldlM (visit table used) (f, [])

end Function

namespace Module

def round (passes : List Pass) (m : Module) : Except Fault (Module × List Change) := do
  let results ← m.functions.mapM (Function.round passes m.symbols)
  return ({ m with functions := results.map Prod.fst }, results.flatMap Prod.snd)

end Module

structure Optimized where
  result : Module
  rounds : Nat
  changes : List Change

/-- What an instruction contributes to the bound on the number of rounds: every
change but a redirected link makes the sum smaller. -/
def Instruction.weight (i : Instruction) : Nat :=
  let operation := match i with
    | .binary .. => 1
    | .cast .. => 1
    | .branch .. => 1
    | _ => 0
  1 + operation + i.uses.length

namespace Module

def blocks (m : Module) : List Block :=
  m.functions.flatMap fun f => f.blocks.toList

/-- A number of rounds that is never reached.  Between two changes that make
instructions fewer or simpler, every jump can be redirected once, and between two
of those every link. -/
def roundBound (m : Module) : Nat :=
  let instructions := m.blocks.flatMap Block.instructions
  let weight := instructions.foldr (fun i total => i.weight + total) 0
  (weight + 1) * ((instructions.length + 1) * (2 * m.blocks.length + 1) + 1)

def repeatRounds (passes : List Pass) : Nat → Optimized → Except Fault Optimized
  | 0, _ => throw .endless
  | fuel + 1, ⟨m, rounds, changes⟩ => do
    let (m, new) ← m.round passes
    if new.isEmpty then return ⟨m, rounds + 1, changes⟩
    else repeatRounds passes fuel ⟨m, rounds + 1, changes ++ new⟩

/-- Runs passes over a module until nothing changes.  Without passes there is
not a single round. -/
def optimize (passes : List Pass) (m : Module) : Except Fault Optimized :=
  if passes.isEmpty then return ⟨m, 0, []⟩
  else repeatRounds passes m.roundBound ⟨m, 0, []⟩

end Module

end Cinder.Flow
