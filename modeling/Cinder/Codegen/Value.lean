import Cinder.Machine.Assembly
import Cinder.Placement.Location

/-!
# Moving values

Values are read from registers, memory and immediates, and written to registers
and memory.  Integers and booleans are loaded into whole registers, extended
according to their type; only their own bytes are written back.
-/

namespace Cinder.Codegen

open Machine

inductive Place where
  | reg (reg : Reg)
  | xmm (xmm : Xmm)
  | mem (size : Size) (address : Address)
deriving DecidableEq, Repr

inductive Value where
  | place (place : Place)
  | imm (value : BitVec 64)
deriving DecidableEq, Repr

namespace Place

/-- The operand for a value of some type.  Memory has a size of its own. -/
def operand (ty : Ty) : Place → Operand
  | .reg r => .reg r (.ofTy ty)
  | .xmm x => .xmm x
  | .mem size address => .mem size address

def ofLocation (ty : Ty) : Location → Place
  | .reg r => .reg r
  | .xmm x => .xmm x
  | .stack offset => .mem (.ofTy ty) (.frame offset)

end Place

namespace Value

def operand (ty : Ty) : Value → Operand
  | .place p => p.operand ty
  | .imm value => .imm value

end Value

/-- Extends an operand of some type to a whole register.  Writing the lower half
of a register clears the upper half. -/
def extend (r : Reg) (source : Operand) (ty : Ty) : Instr :=
  match Size.ofTy ty, ty.isSigned with
  | .qword, _ => .mov (full r) source
  | .dword, true => .movsxd (full r) source
  | .dword, false => .mov (.reg r .dword) source
  | _, true => .movsx (full r) source
  | _, false => .movzx (.reg r .dword) source

def loadInteger (r : Reg) (value : Value) (ty : Ty) : Except Fault (List Instr) :=
  match value with
  | .imm value => .ok [.mov (full r) (.imm value)]
  | .place (.xmm _) => .error (.integerInFloatRegister ty)
  | .place place =>
    if place = .reg r ∧ ty.bytes = 8 then .ok [] else .ok [extend r (place.operand ty) ty]

def storeInteger (place : Place) (r : Reg) (ty : Ty) : List Instr :=
  if place = .reg r then [] else [.mov (place.operand ty) (.reg r (.ofTy ty))]

/-- Whether an immediate can be written to eight bytes of memory. -/
def fitsImmediate (value : BitVec 64) : Bool :=
  (BitVec.intMin 32).toInt ≤ value.toInt && value.toInt ≤ (BitVec.intMax 32).toInt

def moveFloat (destination : Place) (source : Value) (width : FloatWidth) : List Instr :=
  let ty := Ty.float width
  match destination, source with
  | .mem .., .place (.mem ..) =>
    [.movFloat width (.xmm scratchXmm) (source.operand ty),
      .movFloat width (destination.operand ty) (.xmm scratchXmm)]
  | _, _ => [.movFloat width (destination.operand ty) (source.operand ty)]

def moveInteger (destination : Place) (source : Value) (ty : Ty) : List Instr :=
  match destination, source with
  | .mem .., .place (.mem ..) =>
    let transit := Operand.reg scratch (.ofTy ty)
    [.mov transit (source.operand ty), .mov (destination.operand ty) transit]
  | .mem .., .imm value =>
    if ty.bytes = 8 && !fitsImmediate value then
      [.mov (full .rax) (.imm value), .mov (destination.operand ty) (full .rax)]
    else [.mov (destination.operand ty) (.imm value)]
  | _, _ => [.mov (destination.operand ty) (source.operand ty)]

def move (destination : Place) (source : Value) (ty : Ty) : List Instr :=
  if source = .place destination then []
  else match ty with
    | .float width => moveFloat destination source width
    | ty => moveInteger destination source ty

end Cinder.Codegen
