import Cinder.Flow.Dataflow

/-!
# Liveness

A variable is live at a point if some path from there reads it before writing it.
-/

namespace Cinder.Flow

def Instruction.live (i : Instruction) (after : VariableSet) : VariableSet :=
  (i.definition.elim after after.erase).insertMany i.uses

namespace Function

def reads (f : Function) : List Variable :=
  f.blocks.toList.flatMap fun block => block.instructions.flatMap Instruction.uses

/-- The analysis of live variables.  Only variables that are read are ever live,
so a state cannot grow more often than there are reads. -/
def liveness (f : Function) : Analysis VariableSet where
  direction := .backward
  bottom := ∅
  boundary := ∅
  merge live other := live ∪ other
  transfer := Instruction.live
  height := f.reads.length

def blockLiveness (f : Function) : Except Fault (BlockStates VariableSet) :=
  f.liveness.solve f

def instructionLiveness (f : Function) : Except Fault (Arena (List (Point VariableSet))) := do
  f.liveness.points f (← f.blockLiveness)

end Function

theorem Instruction.mem_live {i : Instruction} {after : VariableSet} {v : Variable} :
    v ∈ i.live after ↔ v ∈ i.uses ∨ (v ∈ after ∧ i.definition ≠ some v) := by
  unfold live
  rw [Std.ExtTreeSet.mem_insertMany_list, List.contains_iff_mem]
  cases h : i.definition with
  | none => simp [or_comm]
  | some d =>
    simp only [Option.elim_some, Std.ExtTreeSet.mem_erase, Std.LawfulEqCmp.compare_eq_iff_eq,
      ne_eq, Option.some.injEq]
    exact ⟨fun h => h.elim (fun h => .inr ⟨h.2, h.1⟩) .inl,
      fun h => h.elim .inr (fun h => .inl ⟨h.2, h.1⟩)⟩

end Cinder.Flow
