import Cinder.Codegen.Operation
import Cinder.Flow.Listing
import Cinder.Machine.Data
import Cinder.Placement.Allocate

/-!
# Code of functions

Selects machine instructions for every instruction of a function.  The code of an
instruction follows a comment that shows it.
-/

namespace Cinder.Codegen

open Machine Cinder.Flow

/-- Assembly name of a function.  All names but `main` are marked, so that they
cannot be taken for registers or instructions. -/
def symbolName (name : String) : String :=
  if name = "main" then name else s!"_cn_{name}"

structure Context where
  table : SymbolTable
  function : Function
  placement : Placement
  /-- The floating point constants of the data section. -/
  pool : Pool Constant
  /-- Whether instructions are styled before they are shown in comments. -/
  color : Bool

namespace Context

variable (context : Context)

def placeOf (v : Variable) : Except Fault Place := do
  match ← context.placement.locate context.table v with
  | .reg r => return .reg r
  | .xmm x => return .xmm x
  | .stack offset => return .ofLocation (← v.typeIn context.table) (.stack offset)

def valueOf : Flow.Operand → Except Fault Value
  | .var v => return .place (← context.placeOf v)
  | .constant c =>
    match c.toInt? with
    | some value => return .imm (BitVec.ofInt 64 value)
    | none => return .place (.mem (.ofTy c.ty) (.data (context.pool.number c)))

def typeOf : Flow.Operand → Except Fault Ty
  | .var v => v.typeIn context.table
  | .constant c => return c.ty

def labelOf (id : BlockId) : Except Fault String := do
  let _ ← context.function.block id
  return context.function.labelOf id

/-! ## Calls -/

/-- The vector registers that hold values needed after a call, each once, with
their save slots. -/
def savedAcross (result : Option Variable) (live : VariableSet) :
    Except Fault (List (Xmm × Int)) := do
  let others := live.toList.filter fun v => some v ≠ result
  let locations ← others.mapM (context.placement.locate context.table)
  let xmms := locations.filterMap fun
    | .xmm x => some x
    | _ => none
  xmms.eraseDups.mapM fun x =>
    match context.placement.savedXmms.lookup x with
    | some offset => return (x, offset)
    | none => throw .outOfRange

def park (x : Xmm) (offset : Int) : Instr :=
  .movFloat .w64 (.mem .qword (.frame offset)) (.xmm x)

def unpark (x : Xmm) (offset : Int) : Instr :=
  .movFloat .w64 (.xmm x) (.mem .qword (.frame offset))

def pushArgument (value : Value) (ty : Ty) : Except Fault (List Instr) := do
  match ty with
  | .float width =>
    return move (.xmm scratchXmm) value ty ++ [Instr.alu .sub (full .rsp) (immediate 8),
      .movFloat width (.mem (.ofTy ty) .top) (.xmm scratchXmm)]
  | ty => return (← loadInteger scratch value ty) ++ [Instr.push (full scratch)]

structure Argument where
  slot : ArgumentSlot
  value : Value
  ty : Ty

def arguments (operands : List Flow.Operand) : Except Fault (List Argument) := do
  let typed ← operands.mapM fun operand => do
    let ty ← context.typeOf operand
    return (← context.valueOf operand, ty)
  let slots := ArgumentSlot.ofClasses (typed.map fun (_, ty) => ty.valueClass)
  return (slots.zip typed).map fun (slot, value, ty) => ⟨slot, value, ty⟩

namespace Argument

def isOnStack (argument : Argument) : Bool :=
  match argument.slot with
  | .stack _ => true
  | _ => false

def load (argument : Argument) : Except Fault (List Instr) :=
  match argument.slot with
  | .reg r => loadInteger r argument.value argument.ty
  | .xmm x => return move (.xmm x) argument.value argument.ty
  | .stack _ => return []

end Argument

/-- The bytes that keep the stack pointer at a multiple of 16 when some words are
pushed. -/
def padding (words : Nat) : Nat :=
  if words % 2 = 1 then 8 else 0

def takeResult : Option Variable → Except Fault (List Instr)
  | none => return []
  | some v => do
    let ty ← v.typeIn context.table
    let place ← context.placeOf v
    match ty with
    | .float _ => return move place (.place (.xmm .xmm0)) ty
    | ty => return storeInteger place .rax ty

/-- A call.  Stack arguments are pushed from right to left, then the others are
loaded into their registers. -/
def call (result : Option Variable) (callee : SymbolId) (operands : List Flow.Operand)
    (live : VariableSet) : Except Fault (List Instr) := do
  let saved ← context.savedAcross result live
  let arguments ← context.arguments operands
  let onStack := arguments.filter Argument.isOnStack
  let padding := padding onStack.length
  let pushes ← onStack.reverse.mapM fun argument => pushArgument argument.value argument.ty
  let loads ← arguments.mapM Argument.load
  let bytes := 8 * onStack.length + padding
  let adjust (alu : Alu) (bytes : Nat) : List Instr :=
    if bytes = 0 then [] else [.alu alu (full .rsp) (immediate bytes)]
  let result ← context.takeResult result
  return saved.map (fun (x, offset) => park x offset)
    ++ adjust .sub padding ++ pushes.flatten ++ loads.flatten
    ++ [Instr.call (symbolName (context.table.nameOf callee))] ++ adjust .add bytes
    ++ result ++ saved.map (fun (x, offset) => unpark x offset)

/-! ## Instructions -/

def saveRegisters : List Instr :=
  context.placement.savedRegs.map fun (r, offset) =>
    .mov (.mem .qword (.frame offset)) (full r)

def restoreRegisters : List Instr :=
  context.placement.savedRegs.map fun (r, offset) =>
    .mov (full r) (.mem .qword (.frame offset))

def returnValue : Option (Flow.Operand × Ty) → Except Fault (List Instr)
  | none => return []
  | some (operand, ty) => do
    let value ← context.valueOf operand
    match ty with
    | .float _ => return move (.xmm .xmm0) value ty
    | ty => loadInteger .rax value ty

def branch (condition : Flow.Operand) (label : String) : Except Fault (List Instr) := do
  match condition with
  | .constant c => return if c.isZero then [] else [.jmp label]
  | .var v =>
    let place ← context.placeOf v
    return [.alu .cmp (place.operand .bool) (immediate 0), .jne label]

def select (live : VariableSet) : Instruction → Except Fault (List Line)
  | .label block => return [.label (← context.labelOf block)]
  | .goto target => return [.instr (.jmp (← context.labelOf target))]
  | .branch condition target => do
    let label ← context.labelOf target
    return (← context.branch condition label).map .instr
  | .call result callee arguments =>
    return (← context.call result callee arguments live).map .instr
  | .ret value => do
    let load ← context.returnValue value
    return (load ++ context.restoreRegisters).map .instr ++ leaveFrame
  | .binary result lhs op rhs operandTy resultTy => do
    let result ← context.placeOf result
    let lhs ← context.valueOf lhs
    let rhs ← context.valueOf rhs
    return (← binary result lhs op rhs operandTy resultTy).map .instr
  | .cast result source sourceTy targetTy => do
    let result ← context.placeOf result
    let source ← context.valueOf source
    return (← cast result source sourceTy targetTy).map .instr
  | .alloca .. => return []
  | .store destination value ty => do
    let destination ← context.placeOf destination
    let value ← context.valueOf value
    return (move destination value ty).map .instr
  | .load result source ty => do
    let result ← context.placeOf result
    let source ← context.placeOf source
    return (move result (.place source) ty).map .instr

def selectShown (i : Instruction) (point : Point VariableSet) : Except Fault (List Line) := do
  return .comment (i.display context.table context.color) :: (← context.select point.after i)

def block (liveness : Arena (List (Point VariableSet))) (id : BlockId) (jump : Option BlockId) :
    Except Fault (List Line) := do
  let points := (liveness.get? id).getD []
  let code ← ((context.function.instructionsOf id).zip points).mapM fun (i, point) =>
    context.selectShown i point
  return code.flatten
    ++ jump.toList.map fun target => Line.instr (.jmp (context.function.labelOf target))

def prologue (debugInfo : Bool) : List Line :=
  let locations := context.placement.locations.toList.map fun (v, location) =>
    Line.comment s!"{context.table.nameOf v.symbol} -> {location.text}"
  globalLabel (symbolName context.function.name)
    ++ (if debugInfo then locations else [])
    ++ enterFrame context.placement.frameSize
    ++ context.saveRegisters.map .instr

end Context

structure Commentary where
  /-- Whether the places of the variables are listed. -/
  debugInfo : Bool
  /-- Whether instructions are styled before they are shown. -/
  color : Bool
deriving DecidableEq, Repr

structure Routine where
  function : Function
  placement : Placement
  lines : List Line

namespace Routine

def ofFunction (table : SymbolTable) (pool : Pool Constant) (commentary : Commentary)
    (f : Function) : Except Fault Routine := do
  let liveness ← f.instructionLiveness
  let placement ← Placement.ofLiveness table f liveness
  let context : Context := ⟨table, f, placement, pool, commentary.color⟩
  let layout ← f.layout
  let code ← layout.mapM fun (id, jump) => context.block liveness id jump
  return ⟨f, placement, context.prologue commentary.debugInfo ++ code.flatten⟩

end Routine

end Cinder.Codegen
