import Cinder.Codegen.Value
import Cinder.Operator

/-!
# Operations

Integer operations are carried out in whole registers on extended operands, and
only the low bytes of the result are kept.  Floating point operations go through
a vector register of their own.
-/

namespace Cinder.Codegen

open Machine

/-- The low byte of the accumulator, which comparisons write. -/
abbrev al : Machine.Operand := .reg .rax .byte

def integerCondition (greater signed : Bool) : Condition :=
  match greater, signed with
  | true, true => .greater
  | true, false => .above
  | false, true => .less
  | false, false => .below

def divide (signed : Bool) : List Instr :=
  if signed then [.cqo, .idiv (full scratch)]
  else [.alu .xor (.reg .rdx .dword) (.reg .rdx .dword), .div (full scratch)]

def integerBinary (result : Place) (lhs : Value) (op : Operator) (rhs : Value)
    (operandTy resultTy : Ty) : Except Fault (List Instr) := do
  let arithmetic (alu : Alu) : Except Fault (List Instr) := do
    let loadLhs ← loadInteger scratch lhs operandTy
    let loadRhs ← loadInteger .rax rhs operandTy
    return loadLhs ++ loadRhs ++ [Instr.alu alu (full scratch) (full .rax)]
      ++ storeInteger result scratch resultTy
  let comparison (greater : Bool) : Except Fault (List Instr) := do
    let loadLhs ← loadInteger scratch lhs operandTy
    let loadRhs ← loadInteger .rax rhs operandTy
    return loadLhs ++ loadRhs ++ [Instr.alu .cmp (full scratch) (full .rax),
        .set (integerCondition greater operandTy.isSigned) al]
      ++ storeInteger result .rax resultTy
  match op with
  | .add => arithmetic .add
  | .sub => arithmetic .sub
  | .mul => arithmetic .imul
  | .greater => comparison true
  | .less => comparison false
  | .div =>
    let loadLhs ← loadInteger .rax lhs operandTy
    let loadRhs ← loadInteger scratch rhs operandTy
    return loadLhs ++ loadRhs ++ divide operandTy.isSigned ++ storeInteger result .rax resultTy

/-- A binary operation on floating point values.  `a < b` is taken as `b > a`, so
that a comparison with a NaN is false both ways. -/
def floatBinary (result : Place) (lhs : Value) (op : Operator) (rhs : Value)
    (width : FloatWidth) : List Instr :=
  let ty := Ty.float width
  let arithmetic (alu : FloatAlu) : List Instr :=
    move (.xmm scratchXmm) lhs ty ++ [.floatAlu alu width (.xmm scratchXmm) (rhs.operand ty)]
      ++ move result (.place (.xmm scratchXmm)) ty
  let comparison (greater less : Value) : List Instr :=
    move (.xmm scratchXmm) greater ty
      ++ [.floatAlu .comi width (.xmm scratchXmm) (less.operand ty), .set .above al]
      ++ storeInteger result .rax .bool
  match op with
  | .add => arithmetic .add
  | .sub => arithmetic .sub
  | .mul => arithmetic .mul
  | .div => arithmetic .div
  | .greater => comparison lhs rhs
  | .less => comparison rhs lhs

def binary (result : Place) (lhs : Value) (op : Operator) (rhs : Value)
    (operandTy resultTy : Ty) : Except Fault (List Instr) :=
  match operandTy with
  | .float width => .ok (floatBinary result lhs op rhs width)
  | ty => integerBinary result lhs op rhs ty resultTy

/-- A conversion between types.  To a boolean, a NaN counts as not zero. -/
def cast (result : Place) (source : Value) (sourceTy targetTy : Ty) :
    Except Fault (List Instr) := do
  match sourceTy, targetTy with
  | .bool, .bool => throw .booleanIdentityCast
  | .float width, .bool =>
    return [Instr.clear (.xmm scratchXmm),
        .floatAlu .ucomi width (.xmm scratchXmm) (source.operand sourceTy),
        .set .notEqual al, .set .parity (.reg scratch .byte),
        .alu .or al (.reg scratch .byte)]
      ++ storeInteger result .rax .bool
  | _, .bool =>
    let load ← loadInteger scratch source sourceTy
    return load ++ [Instr.alu .test (full scratch) (full scratch), .set .notEqual al]
      ++ storeInteger result .rax .bool
  | .float width, .int .. =>
    if targetTy = Ty.u64 then throw .floatToUnsigned
    return [Instr.floatToInt width (full scratch) (source.operand sourceTy)]
      ++ storeInteger result scratch targetTy
  | _, .int .. =>
    let load ← loadInteger scratch source sourceTy
    return load ++ storeInteger result scratch targetTy
  | .float width, .float width' =>
    if width = width' then return move result source targetTy
    return [Instr.floatToFloat width width' (.xmm scratchXmm) (source.operand sourceTy)]
      ++ move result (.place (.xmm scratchXmm)) targetTy
  | _, .float width =>
    if sourceTy = Ty.u64 then throw .unsignedToFloat
    let load ← loadInteger scratch source sourceTy
    return load ++ [Instr.intToFloat width (.xmm scratchXmm) (full scratch)]
      ++ move result (.place (.xmm scratchXmm)) targetTy

end Cinder.Codegen
