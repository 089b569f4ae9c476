import Cinder.Ty

/-!
# Symbols

Every declaration of a program is a symbol: functions, parameters, local
variables, and the variables that lowering adds.
-/

namespace Cinder

abbrev SymbolId := Nat

/-- Where a variable comes from.  Writing a variable is observable unless it is a
temporary. -/
inductive Origin where
  /-- Declared with `var`. -/
  | user
  /-- A parameter as received from the caller. -/
  | parameter
  /-- The slot a parameter is copied into on entry. -/
  | parameterSlot
  /-- The slot that holds the result until the exit block. -/
  | returnSlot
  | temporary
deriving DecidableEq, Repr

namespace Origin

def outline : Origin → String
  | user => "User"
  | parameter => "Parameter"
  | parameterSlot => "ParameterSlot"
  | returnSlot => "ReturnSlot"
  | temporary => "Temporary"

end Origin

/-- What a symbol denotes.  A variable has no type before it has been checked. -/
inductive SymbolKind where
  | function (parameters : List SymbolId) (returnType : Option Ty)
  | var (ty : Option Ty) (origin : Origin)
deriving DecidableEq, Repr

namespace SymbolKind

private def outlineType : Option Ty → String
  | none => "None"
  | some ty => s!"Some({ty.outline})"

private def outlineIds (ids : List SymbolId) : String :=
  ", ".intercalate (ids.map fun id => s!"SymbolId({id})")

def outline : SymbolKind → String
  | function parameters returnType =>
    s!"Function \x7b parameters: [{outlineIds parameters}], "
      ++ s!"return_type: {outlineType returnType} \x7d"
  | var ty origin =>
    s!"Variable \x7b ty: {outlineType ty}, origin: {origin.outline} \x7d"

end SymbolKind

structure Symbol where
  name : String
  kind : SymbolKind
deriving DecidableEq, Repr

end Cinder
