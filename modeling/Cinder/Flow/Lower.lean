import Cinder.Flow.Graph
import Cinder.Program.Basic

/-!
# Lowering

Turns a typed program into flow graphs.  An expression becomes a list of
instructions that leave its value in an operand.  Every source variable gets a
slot, and every `return` stores its value in the return slot and jumps to the
exit, which is the only block that returns.
-/

namespace Cinder

namespace Flow

structure Supply where
  symbols : SymbolTable
  temporaries : Nat := 0

namespace Supply

def slot (supply : Supply) (name : String) (ty : Ty) (origin : Origin) : Variable × Supply :=
  ({ symbol := supply.symbols.next },
    { supply with symbols := supply.symbols.declareVariable name (some ty) origin })

/-- A new temporary.  Temporaries are numbered within their function. -/
def temporary (supply : Supply) (ty : Ty) : Variable × Supply :=
  let (v, supply') := supply.slot s!"$tmp{supply.temporaries}" ty .temporary
  (v, { supply' with temporaries := supply.temporaries + 1 })

end Supply

abbrev Slots := List (SymbolId × Variable)

namespace Slots

def find (slots : Slots) (table : SymbolTable) (symbol : SymbolId) : Except Fault Variable :=
  match slots.lookup symbol with
  | some slot => .ok slot
  | none => .error (.undeclaredSlot (table.nameOf symbol))

end Slots

structure Code where
  instructions : List Instruction
  value : Operand
  supply : Supply

end Flow

open Cinder.Flow

/-- The constant of a literal.  An integer that is typed as floating point is
rounded to the wide format first. -/
def Literal.lower (literal : Literal) (ty : Ty) : Except Fault Constant :=
  match literal, ty with
  | .boolean value, _ => .ok (.bool value)
  | .integer value, .float .w32 => .ok (.float .w32 ((FloatBits.ofInt .w64 value).convert .w32))
  | .integer value, .float .w64 => .ok (.float .w64 (FloatBits.ofInt .w64 value))
  | .integer value, .int width signed => .ok (.ofInt width signed value)
  | .integer _, ty => .error (.notAnInteger ty)
  | .float bits, .float .w32 => .ok (.float .w32 (bits.convert .w32))
  | .float bits, .float .w64 => .ok (.float .w64 bits)
  | .float _, ty => .error (.floatLiteral ty)

def Constant.zero (ty : Ty) : Except Fault Constant :=
  match ty with
  | .float width => .ok (.float width 0)
  | .int width signed => .ok (.ofInt width signed 0)
  | ty => .error (.notAnInteger ty)

namespace Expr

def valueType (expr : Expr SymbolId (Option Ty)) : Except Fault Ty :=
  match expr.ty with
  | some ty => .ok ty
  | none => .error .untypedExpression

mutual

def lower (slots : Slots) (supply : Supply) (expr : Expr SymbolId (Option Ty)) :
    Except Fault Code := do
  let ty ← expr.valueType
  match expr with
  | .literal _ _ value => return ⟨[], .constant (← value.lower ty), supply⟩
  | .ident _ _ _ symbol =>
    let slot ← slots.find supply.symbols symbol
    let (result, supply) := supply.temporary ty
    return ⟨[.load result slot ty], .var result, supply⟩
  | .call _ _ _ symbol arguments =>
    let (instructions, values, supply) ← lowerAll slots supply arguments
    match ← supply.symbols.returnTypeOf symbol with
    | none => throw .voidValue
    | some ty =>
      let (result, supply) := supply.temporary ty
      return ⟨instructions ++ [.call (some result) symbol values], .var result, supply⟩
  | .binary _ _ op _ lhs rhs =>
    let operandTy ← lhs.valueType
    let lhs ← lower slots supply lhs
    let rhs ← lower slots lhs.supply rhs
    let (result, supply) := rhs.supply.temporary ty
    return ⟨lhs.instructions ++ rhs.instructions
      ++ [.binary result lhs.value op rhs.value operandTy ty], .var result, supply⟩
  | .negate _ _ operand =>
    let zero ← Constant.zero ty
    let operand ← lower slots supply operand
    let (result, supply) := operand.supply.temporary ty
    return ⟨operand.instructions ++ [.binary result (.constant zero) .sub operand.value ty ty],
      .var result, supply⟩
  | .cast _ _ operand _ =>
    let sourceTy ← operand.valueType
    let operand ← lower slots supply operand
    let (result, supply) := operand.supply.temporary ty
    return ⟨operand.instructions ++ [.cast result operand.value sourceTy ty], .var result, supply⟩

def lowerAll (slots : Slots) (supply : Supply) :
    List (Expr SymbolId (Option Ty)) → Except Fault (List Instruction × List Operand × Supply)
  | [] => return ([], [], supply)
  | expr :: rest => do
    let code ← lower slots supply expr
    let (instructions, values, supply) ← lowerAll slots code.supply rest
    return (code.instructions ++ instructions, code.value :: values, supply)

end

def lowerEffect (slots : Slots) (supply : Supply) :
    Expr SymbolId (Option Ty) → Except Fault (List Instruction × Supply)
  | .call _ _ _ symbol arguments => do
    let (instructions, values, supply) ← lowerAll slots supply arguments
    match ← supply.symbols.returnTypeOf symbol with
    | none => return (instructions ++ [.call none symbol values], supply)
    | some ty =>
      let (result, supply) := supply.temporary ty
      return (instructions ++ [.call (some result) symbol values], supply)
  | expr => do
    let code ← expr.lower slots supply
    return (code.instructions, code.supply)

end Expr

namespace Flow

/-- A function under construction.  Instructions go to the end of the current
block. -/
structure Draft where
  supply : Supply
  function : Function
  current : BlockId
  returnSlot : Option Variable := none
  slots : Slots := []

namespace Draft

def ofSymbol (table : SymbolTable) (symbol : SymbolId) : Except Fault Draft := do
  let function ← Function.ofSymbol table symbol
  return { supply := { symbols := table }, function, current := function.entry }

def emit (draft : Draft) (instructions : List Instruction) : Draft :=
  { draft with
    function := draft.function.modifyBlock draft.current fun block =>
      { block with instructions := block.instructions ++ instructions } }

def take (draft : Draft) (code : Code) : Draft :=
  { draft.emit code.instructions with supply := code.supply }

def enter (draft : Draft) (id : BlockId) : Draft :=
  { draft with current := id }

def slot (draft : Draft) (name : String) (ty : Ty) (origin : Origin) : Variable × Draft :=
  let (v, supply) := draft.supply.slot name ty origin
  (v, { draft with supply })

def isTerminated (draft : Draft) : Bool :=
  (draft.function.block? draft.current).any Block.isTerminated

def jump (draft : Draft) (target : BlockId) : Draft :=
  let draft := draft.emit [.goto target]
  { draft with
    function := draft.function.modifyBlock draft.current fun block =>
      { block with next := some target } }

def jumpIfOpen (draft : Draft) (target : BlockId) : Draft :=
  if draft.isTerminated then draft else draft.jump target

def split (draft : Draft) (condition : Operand) (taken otherwise : BlockId) : Draft :=
  let draft := draft.emit [.branch condition taken]
  { draft with
    function := draft.function.modifyBlock draft.current fun block =>
      { block with branch := some taken, next := some otherwise } }

def addBlock (draft : Draft) : BlockId × Draft :=
  (draft.function.blocks.next, { draft with function := draft.function.addBlock })

def declareReturn (draft : Draft) : Draft :=
  match draft.function.returnType with
  | none => draft
  | some ty =>
    let (slot, draft) := draft.slot "$ret" ty .returnSlot
    { draft.emit [.alloca slot ty] with returnSlot := some slot }

def declareParameter (draft : Draft) (parameter : Parameter SymbolId) : Except Fault Draft := do
  let ty ← draft.supply.symbols.typeOf parameter.symbol
  let incoming : Variable := { symbol := parameter.symbol }
  let (slot, draft) := draft.slot s!"{parameter.name.name}.addr" ty .parameterSlot
  let draft := draft.emit [.alloca slot ty, .store slot (.var incoming) ty]
  return { draft with
    function := { draft.function with parameters := draft.function.parameters ++ [incoming] }
    slots := (parameter.symbol, slot) :: draft.slots }

def finish (draft : Draft) : Except Fault Draft := do
  let draft := (draft.jumpIfOpen draft.function.exit).enter draft.function.exit
  match draft.returnSlot with
  | none => return draft.emit [.ret none]
  | some slot =>
    let ty ← draft.supply.symbols.typeOf slot.symbol
    let (value, supply) := draft.supply.temporary ty
    return { draft.emit [.load value slot ty, .ret (some (.var value, ty))] with supply }

end Draft

end Flow

mutual

def Statement.lower (draft : Draft) :
    Statement SymbolId (Option Ty) → Except Fault Draft
  | .declare decl => do
    let ty ← draft.supply.symbols.typeOf decl.symbol
    let slot : Variable := { symbol := decl.symbol }
    let draft := draft.emit [.alloca slot ty]
    let draft := { draft with slots := (decl.symbol, slot) :: draft.slots }
    match decl.initializer with
    | none => return draft
    | some initializer =>
      let code ← initializer.lower draft.slots draft.supply
      return (draft.take code).emit [.store slot code.value ty]
  | .assign _ _ symbol value => do
    let slot ← draft.slots.find draft.supply.symbols symbol
    let ty ← draft.supply.symbols.typeOf slot.symbol
    let code ← value.lower draft.slots draft.supply
    return (draft.take code).emit [.store slot code.value ty]
  | .ret _ none => return draft.jump draft.function.exit
  | .ret _ (some value) =>
    match draft.returnSlot with
    | none => throw .unexpectedReturnValue
    | some slot => do
      let ty ← draft.supply.symbols.typeOf slot.symbol
      let code ← value.lower draft.slots draft.supply
      return ((draft.take code).emit [.store slot code.value ty]).jump draft.function.exit
  | .ifThen _ condition positive => do
    let condition ← condition.lower draft.slots draft.supply
    let (taken, draft) := (draft.take condition).addBlock
    let (otherwise, draft) := draft.addBlock
    let (after, draft) := draft.addBlock
    let draft ← positive.lower ((draft.split condition.value taken otherwise).enter taken)
    return (((draft.jumpIfOpen after).enter otherwise).jumpIfOpen after).enter after
  | .ifElse _ condition positive negative => do
    let condition ← condition.lower draft.slots draft.supply
    let (taken, draft) := (draft.take condition).addBlock
    let (otherwise, draft) := draft.addBlock
    let (after, draft) := draft.addBlock
    let draft ← positive.lower ((draft.split condition.value taken otherwise).enter taken)
    let draft ← negative.lower ((draft.jumpIfOpen after).enter otherwise)
    return (draft.jumpIfOpen after).enter after
  | .expr _ value => do
    let (instructions, supply) ← value.lowerEffect draft.slots draft.supply
    return { draft.emit instructions with supply }

def Block.lower (draft : Draft) : Block SymbolId (Option Ty) → Except Fault Draft
  | .mk _ statements => Statement.lowerAll draft statements

/-- Adds statements to a draft; nothing behind a `return` is reached. -/
def Statement.lowerAll (draft : Draft) :
    List (Statement SymbolId (Option Ty)) → Except Fault Draft
  | [] => return draft
  | .ret span value :: _ => Statement.lower draft (.ret span value)
  | statement :: rest => do
    Statement.lowerAll (← statement.lower draft) rest

end

namespace Definition

def lower (table : SymbolTable) (definition : Definition SymbolId (Option Ty)) :
    Except Fault (Function × SymbolTable) := do
  let draft := (← Draft.ofSymbol table definition.symbol).declareReturn
  let draft ← definition.parameters.foldlM Draft.declareParameter draft
  let draft ← (← definition.body.lower draft).finish
  return (draft.function, draft.supply.symbols)

def lowerAll (table : SymbolTable) :
    List (Definition SymbolId (Option Ty)) → Except Fault (List Function × SymbolTable)
  | [] => return ([], table)
  | definition :: rest => do
    let (function, table) ← definition.lower table
    let (functions, table) ← lowerAll table rest
    return (function :: functions, table)

end Definition

def Program.lower (program : Program.Typed) (table : SymbolTable) : Except Fault Module := do
  let (functions, table) ← Definition.lowerAll table program.functions
  return ⟨table, functions⟩

end Cinder
