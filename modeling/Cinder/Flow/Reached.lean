import Cinder.Flow.Dataflow

/-!
# Passed labels

The labels that some path from the entry to a point has passed.
-/

namespace Cinder.Flow

abbrev BlockSet := Std.ExtTreeSet BlockId

def Function.labels (f : Function) : List Instruction :=
  f.blocks.toList.flatMap fun block => block.instructions.filter Instruction.isLabel

def Instruction.pass (i : Instruction) (before : BlockSet) : BlockSet :=
  match i with
  | .label block => before.insert block
  | _ => before

def Function.passed (f : Function) : Analysis BlockSet where
  direction := .forward
  bottom := ∅
  boundary := ∅
  merge passed other := passed ∪ other
  transfer := Instruction.pass
  height := f.labels.length

end Cinder.Flow
