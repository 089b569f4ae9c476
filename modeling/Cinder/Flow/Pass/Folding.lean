import Cinder.Flow.Graph

/-!
# Constant folding

Operations whose operands are constants are evaluated, and become stores of their
value.
-/

namespace Cinder.Flow

namespace Instruction

def fold? : Instruction → Option Instruction
  | .binary result (.constant lhs) op (.constant rhs) _ resultTy =>
    (lhs.binary op rhs).map fun value => .store result (.constant value) resultTy
  | .cast result (.constant source) _ targetTy =>
    some (.store result (.constant (source.cast targetTy)) targetTy)
  | _ => none

def fold (i : Instruction) : Instruction :=
  i.fold?.getD i

@[simp] theorem definition_fold (i : Instruction) : i.fold.definition = i.definition := by
  unfold fold fold?
  split
  · rename_i lhs op rhs _ _
    cases lhs.binary op rhs <;> rfl
  · rfl
  · rfl

end Instruction

def Block.fold (block : Block) : Block :=
  { block with instructions := block.instructions.map Instruction.fold }

end Cinder.Flow
