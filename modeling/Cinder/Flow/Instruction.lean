import Cinder.Constant
import Cinder.SymbolTable
import Std.Data.ExtTreeSet

/-!
# Instructions

Three-address instructions over variables and constants.  Every source variable
has a slot, written by `store` and read by `load`; everything in between is a
temporary.
-/

namespace Cinder.Flow

abbrev BlockId := Nat

def blockName (id : BlockId) : String :=
  s!"bb{id}"

structure Variable where
  symbol : SymbolId
  version : Nat := 0
deriving DecidableEq, Repr

namespace Variable

/-- Variables are ordered by symbol, then by version. -/
instance : Ord Variable where
  compare := compareLex (compareOn symbol) (compareOn version)

theorem compare_def :
    (compare : Variable → Variable → Ordering) =
      compareLex (compareOn symbol) (compareOn version) :=
  rfl

instance : Std.TransOrd Variable :=
  inferInstanceAs (Std.TransCmp (compareLex (compareOn symbol) (compareOn version)))

instance : Std.LawfulEqOrd Variable where
  eq_of_compare {a b} h := by
    simp only [compare_def, compareLex, compareOn, Ordering.then_eq_eq,
      Std.LawfulEqCmp.compare_eq_iff_eq] at h
    cases a; cases b; simp_all
  compare_self := by simp

def ofSymbol (table : SymbolTable) (symbol : SymbolId) : Except Fault Variable := do
  let _ ← table.get symbol
  return { symbol }

def typeIn (table : SymbolTable) (v : Variable) : Except Fault Ty :=
  table.typeOf v.symbol

def display (table : SymbolTable) (v : Variable) : String :=
  let name := table.nameOf v.symbol
  if v.version = 0 then name else s!"{name}(v{v.version})"

end Variable

abbrev VariableSet := Std.ExtTreeSet Variable

inductive Operand where
  | constant (value : Constant)
  | var (v : Variable)
deriving DecidableEq, Repr

namespace Operand

def toVariable? : Operand → Option Variable
  | .constant _ => none
  | .var v => some v

end Operand

inductive Instruction where
  /-- Marks the start of a block. -/
  | label (block : BlockId)
  | goto (target : BlockId)
  /-- Goes to the target if the condition is not zero, and on otherwise. -/
  | branch (condition : Operand) (target : BlockId)
  | call (result : Option Variable) (callee : SymbolId) (arguments : List Operand)
  | ret (value : Option (Operand × Ty))
  | binary (result : Variable) (lhs : Operand) (op : Operator) (rhs : Operand)
      (operandTy resultTy : Ty)
  | cast (result : Variable) (source : Operand) (sourceTy targetTy : Ty)
  /-- Reserves the slot of a variable without giving it a value. -/
  | alloca (result : Variable) (ty : Ty)
  | store (destination : Variable) (value : Operand) (ty : Ty)
  | load (result : Variable) (source : Variable) (ty : Ty)
deriving DecidableEq, Repr

namespace Instruction

def definition : Instruction → Option Variable
  | .call result _ _ => result
  | .binary result .. => some result
  | .cast result .. => some result
  | .store destination .. => some destination
  | .load result .. => some result
  | _ => none

def operands : Instruction → List Operand
  | .branch condition _ => [condition]
  | .call _ _ arguments => arguments
  | .ret value => value.toList.map Prod.fst
  | .binary _ lhs _ rhs _ _ => [lhs, rhs]
  | .cast _ source _ _ => [source]
  | .store _ value _ => [value]
  | .load _ source _ => [.var source]
  | _ => []

/-- The operands that a constant may stand in for.  A load reads a slot, which is
none of them. -/
def replaceable : Instruction → List Operand
  | .load .. => []
  | i => i.operands

def mapReplaceable (f : Operand → Operand) : Instruction → Instruction
  | .branch condition target => .branch (f condition) target
  | .call result callee arguments => .call result callee (arguments.map f)
  | .ret value => .ret (value.map fun (operand, ty) => (f operand, ty))
  | .binary result lhs op rhs operandTy resultTy =>
    .binary result (f lhs) op (f rhs) operandTy resultTy
  | .cast result source sourceTy targetTy => .cast result (f source) sourceTy targetTy
  | .store destination value ty => .store destination (f value) ty
  | i => i

def uses (i : Instruction) : List Variable :=
  i.operands.filterMap Operand.toVariable?

def isTerminator : Instruction → Bool
  | .goto _ => true
  | .ret _ => true
  | _ => false

def isLabel : Instruction → Bool
  | .label _ => true
  | _ => false

def isBranch : Instruction → Bool
  | .branch .. => true
  | _ => false

/-- Whether dropping the instruction could be noticed although nothing reads what
it writes.  A store is free of effects only if it writes a temporary. -/
def hasSideEffect (table : SymbolTable) : Instruction → Bool
  | .binary .. => false
  | .cast .. => false
  | .load .. => false
  | .store destination .. => !table.isTemporary destination.symbol
  | _ => true

def jumpsTo (target : BlockId) : Instruction → Bool
  | .goto t => t == target
  | .branch _ t => t == target
  | _ => false

def retarget (source target : BlockId) : Instruction → Instruction
  | .goto t => .goto (if t = source then target else t)
  | .branch condition t => .branch condition (if t = source then target else t)
  | i => i

theorem mapReplaceable_id (i : Instruction) : i.mapReplaceable id = i := by
  cases i with
  | ret value => cases value <;> rfl
  | call result callee arguments => simp [mapReplaceable]
  | _ => rfl

theorem replaceable_mapReplaceable (f : Operand → Operand) (i : Instruction) :
    (i.mapReplaceable f).replaceable = i.replaceable.map f := by
  cases i with
  | ret value => cases value <;> rfl
  | _ => rfl

@[simp] theorem definition_mapReplaceable (f : Operand → Operand) (i : Instruction) :
    (i.mapReplaceable f).definition = i.definition := by
  cases i <;> rfl

@[simp] theorem definition_retarget (source target : BlockId) (i : Instruction) :
    (i.retarget source target).definition = i.definition := by
  cases i <;> rfl

end Instruction

end Cinder.Flow
