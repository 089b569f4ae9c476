import Cinder.Flow.Graph

/-!
# Constant propagation

A temporary that a block stores a constant into is replaced by the constant
wherever the block reads it.  A temporary is written once, so it does not matter
whether the store comes before the read.
-/

namespace Cinder.Flow

def Instruction.knowledge? (table : SymbolTable) : Instruction → Option (Variable × Constant)
  | .store destination (.constant value) _ =>
    if table.isTemporary destination.symbol then some (destination, value) else none
  | _ => none

def Operand.propagate (known : List (Variable × Constant)) : Operand → Operand
  | .constant c => .constant c
  | .var v => (known.lookup v).elim (.var v) .constant

namespace Block

/-- The temporaries that a block stores constants into.  The last store of a
temporary comes first. -/
def known (table : SymbolTable) (block : Block) : List (Variable × Constant) :=
  (block.instructions.filterMap (Instruction.knowledge? table)).reverse

def propagate (table : SymbolTable) (block : Block) : Block :=
  { block with
    instructions := block.instructions.map
      (Instruction.mapReplaceable (Operand.propagate (block.known table))) }

end Block

end Cinder.Flow
