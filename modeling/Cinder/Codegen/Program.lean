import Cinder.Codegen.Routine

/-!
# Assembly programs

The code of a whole module: an entry point that calls `main`, the functions, and
the data section.
-/

namespace Cinder

open Machine Cinder.Flow

namespace Flow

/-- The floating point constants that the code of an instruction reads from
memory.  A condition is never read from there. -/
def Instruction.poolRequests : Instruction → List Constant
  | .branch .. => []
  | i => i.operands.filterMap fun
    | .constant (.float width bits) => some (.float width bits)
    | _ => none

namespace Module

/-- The floating point constants of a module, numbered in the order of the code. -/
def pool (m : Module) : Pool Constant :=
  .ofRequests <| m.functions.flatMap fun f =>
    (f.preorder.flatMap f.instructionsOf).flatMap Instruction.poolRequests

/-- Whether the value that `main` returns becomes the status of the process. -/
def returnsStatus (m : Module) : Bool :=
  m.functions.any fun f =>
    f.name == "main" && f.returnType.any fun ty => ty.valueClass = .general

end Module

end Flow

namespace Codegen

def entryPoint (returnsStatus : Bool) : List Line :=
  [.directive ".intel_syntax noprefix", .blank,
    .directive ".text", .directive ".globl _start", .blank,
    .heading "program entrypoint", .label "_start", .instr (.call "main"), .blank,
    .comment "exit syscall using the status returned by main",
    .instr (if returnsStatus then .mov (full .rdi) (full .rax)
      else .alu .xor (.reg .rdi .dword) (.reg .rdi .dword)),
    .instr (.mov (full .rax) (immediate 60)), .instr .syscall, .blank]

def routines (commentary : Commentary) (m : Module) : Except Fault (List Routine) :=
  m.functions.mapM (Routine.ofFunction m.symbols m.pool commentary)

structure Assembly where
  routines : List Routine
  lines : List Line

def assemble (commentary : Commentary) (m : Module) : Except Fault Assembly := do
  let routines ← routines commentary m
  let data ← dataEntries m.pool
  let lines := entryPoint m.returnsStatus ++ [Line.heading "user code"]
    ++ [Line.blank].intercalate (routines.map Routine.lines)
    ++ [Line.blank, .heading "floating point constants", .directive ".data"] ++ data
  return ⟨routines, lines⟩

namespace Assembly

def text (assembly : Assembly) : String :=
  Line.render assembly.lines

end Assembly

end Codegen

end Cinder
