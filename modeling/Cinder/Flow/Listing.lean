import Cinder.Flow.Graph

/-!
# Listings

Text of instructions, functions and modules.
-/

namespace Cinder

def Constant.styled (c : Constant) : Styled :=
  Styled.styled .magenta c.display

namespace Flow

open Styled

variable (table : SymbolTable)

private def keyword (text : String) : Styled :=
  styled .cyan text

private def mark (text : String) : Styled :=
  styled .white text

private def target (id : BlockId) : Styled :=
  styled .blue (blockName id)

private def space : Styled :=
  plain " "

private def comma : Styled :=
  plain ", "

def Variable.styled (v : Variable) : Styled :=
  Styled.styled .green (v.display table)

def Operand.styled : Operand → Styled
  | .constant c => c.styled
  | .var v => v.styled table

namespace Instruction

private def assigns (result : Variable) : Styled :=
  result.styled table ++ space ++ mark "=" ++ space

def listing : Instruction → Styled
  | .label block => keyword "label" ++ plain s!" {blockName block}"
  | .goto block => keyword "goto" ++ space ++ target block
  | .branch condition block =>
    keyword "if" ++ space ++ condition.styled table ++ space ++ keyword "goto" ++ space
      ++ target block
  | .call result callee arguments =>
    result.elim [] (assigns table)
      ++ keyword "call" ++ space ++ Styled.styled .blue (table.nameOf callee) ++ mark "("
      ++ intercalate ", " (arguments.map (Operand.styled table)) ++ mark ")"
  | .ret (some (value, ty)) => keyword "ret" ++ space ++ ty.styled ++ space ++ value.styled table
  | .ret none => keyword "ret"
  | .binary result lhs op rhs operandTy resultTy =>
    assigns table result ++ keyword op.mnemonic ++ space ++ operandTy.styled
      ++ (if operandTy = resultTy then [] else space ++ mark "->" ++ space ++ resultTy.styled)
      ++ space ++ lhs.styled table ++ comma ++ rhs.styled table
  | .cast result source sourceTy targetTy =>
    assigns table result ++ keyword "cast" ++ space ++ sourceTy.styled ++ space ++ mark "->"
      ++ space ++ targetTy.styled ++ space ++ source.styled table
  | .alloca result ty => assigns table result ++ keyword "alloca" ++ space ++ ty.styled
  | .store destination value ty =>
    keyword "store" ++ space ++ ty.styled ++ space ++ destination.styled table ++ comma
      ++ value.styled table
  | .load result source ty =>
    assigns table result ++ keyword "load" ++ space ++ ty.styled ++ space ++ source.styled table

def display (color : Bool) (i : Instruction) : String :=
  (i.listing table).shown color

end Instruction

def Function.blockListing (f : Function) (id : BlockId) : Styled :=
  styled .brightRed s!"{blockName id}:" ++ plain "\n"
    ++ ((f.instructionsOf id).filter (!·.isLabel)).flatMap fun i =>
      plain "    " ++ i.listing table ++ plain "\n"

def Function.listing (f : Function) : Except Fault Styled := do
  let order ← f.order
  return styled .magenta "fun" ++ space ++ styled .blue f.name ++ mark "("
    ++ intercalate ", " (f.parameters.map (Variable.styled table)) ++ mark ")"
    ++ f.returnType.elim [] (fun ty => space ++ ty.styled) ++ space ++ mark "\x7b" ++ plain "\n"
    ++ order.flatMap (f.blockListing table) ++ mark "\x7d" ++ plain "\n"

def Module.listing (m : Module) : Except Fault Styled := do
  return intercalate "\n" (← m.functions.mapM (Function.listing m.symbols))

end Flow

end Cinder
