import Cinder.Machine.Instr

/-!
# Locations

Where variables live, and where arguments are passed.
-/

namespace Cinder

open Machine

inductive Location where
  | reg (reg : Reg)
  | xmm (xmm : Xmm)
  /-- At an offset from the frame pointer: below it in the frame of the function,
  above it among the arguments that the caller has pushed. -/
  | stack (offset : Int)
deriving DecidableEq, Repr

namespace Location

def isRegister : Location → Bool
  | .stack _ => false
  | _ => true

def text : Location → String
  | .reg r => r.name
  | .xmm x => x.name
  | .stack offset => (Address.frame offset).text

end Location

inductive ArgumentSlot where
  | reg (reg : Reg)
  | xmm (xmm : Xmm)
  /-- On the stack, as the word with this number from the top. -/
  | stack (index : Nat)
deriving DecidableEq, Repr

namespace ArgumentSlot

/-- Where the called function finds the argument: two words, the return address
and the old frame pointer, lie between the frame pointer and the stack
arguments. -/
def location : ArgumentSlot → Location
  | .reg r => .reg r
  | .xmm x => .xmm x
  | .stack index => .stack (16 + 8 * index)

/-- Hands out the free registers of each class, then words of the stack. -/
def assign : List Reg → List Xmm → Nat → List ValueClass → List ArgumentSlot
  | _, _, _, [] => []
  | r :: regs, xmms, index, .general :: rest => .reg r :: assign regs xmms index rest
  | [], xmms, index, .general :: rest => .stack index :: assign [] xmms (index + 1) rest
  | regs, x :: xmms, index, .float :: rest => .xmm x :: assign regs xmms index rest
  | regs, [], index, .float :: rest => .stack index :: assign regs [] (index + 1) rest

def ofClasses (classes : List ValueClass) : List ArgumentSlot :=
  assign argumentRegs argumentXmms 0 classes

@[simp] theorem length_assign (regs : List Reg) (xmms : List Xmm) (index : Nat)
    (classes : List ValueClass) : (assign regs xmms index classes).length = classes.length := by
  fun_induction assign <;> simp_all

end ArgumentSlot

end Cinder
