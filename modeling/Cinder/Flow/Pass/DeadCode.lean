import Cinder.Flow.Graph

/-!
# Dead code

Instructions behind an unconditional jump are never run, and instructions without
effects whose result nobody reads need not be run.
-/

namespace Cinder.Flow

def takeThrough {α : Type} (p : α → Bool) : List α → List α
  | [] => []
  | a :: rest => if p a then [a] else a :: takeThrough p rest

namespace Block

/-- Cuts a block behind its first unconditional jump and makes its links agree
with the instructions that are left. -/
def cut (block : Block) : Block :=
  if block.instructions.any Instruction.isTerminator then
    let instructions := takeThrough Instruction.isTerminator block.instructions
    let next := match instructions.getLast? with
      | some (.goto target) => some target
      | _ => block.next
    let branch := if instructions.any Instruction.isBranch then block.branch else none
    ⟨instructions, next, branch⟩
  else block

def sweep (table : SymbolTable) (used : VariableSet) (block : Block) : Block :=
  { block with
    instructions := block.instructions.filter fun i =>
      i.hasSideEffect table || i.definition.all used.contains }

def prune (table : SymbolTable) (used : VariableSet) (block : Block) : Block :=
  block.cut.sweep table used

end Block

def Function.used (f : Function) : Except Fault VariableSet := do
  return Std.ExtTreeSet.ofList ((← f.instructions).flatMap Instruction.uses)

theorem takeThrough_sublist {α : Type} (p : α → Bool) (l : List α) :
    (takeThrough p l).Sublist l := by
  induction l with
  | nil => exact .slnil
  | cons a rest ih =>
    unfold takeThrough
    split
    · exact .cons_cons a (List.nil_sublist rest)
    · exact .cons_cons a ih

end Cinder.Flow
