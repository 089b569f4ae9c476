import Cinder.Constant
import Cinder.Symbol

/-!
# Broken invariants

Stages after checking take their input to be well formed.  When a hand-made
input is not, a stage stops with a fault that says which invariant is broken.
-/

namespace Cinder

inductive Fault where
  /-- A handle outside its arena, or a missing entry of a table. -/
  | outOfRange
  /-- A repetition went on for longer than its bound. -/
  | endless
  /-- The end of a scope where none is open. -/
  | unopenedScope
  /-- A local declaration where no scope is open. -/
  | bindingOutsideScopes
  | untypedSymbol (symbol : Symbol)
  | notAFunction (symbol : Symbol)
  | notAVariable (kind : SymbolKind)
  | untypedExpression
  | notAnInteger (ty : Ty)
  | notAFloat (ty : Ty)
  | floatLiteral (ty : Ty)
  | voidValue
  | unexpectedReturnValue
  | undeclaredSlot (name : String)
  | unallocated (name : String)
  | foreignPoolEntry (constant : Constant)
  | integerInFloatRegister (ty : Ty)
  | booleanIdentityCast
  | unsignedToFloat
  | floatToUnsigned
  | registerSize (bytes : Nat)
deriving DecidableEq, Repr

namespace Fault

private def unreachable (text : String) : String :=
  "internal error: entered unreachable code: " ++ text

def message? : Fault → Option String
  | outOfRange => none
  | endless => none
  | unopenedScope => some "Attempted to pop a shallow scope from the global context"
  | bindingOutsideScopes => some "Tried to add a shallow binding in the global context"
  | untypedSymbol symbol =>
    some s!"symbol `{symbol.name}` has no resolved variable type: {symbol.kind.outline}"
  | notAFunction symbol =>
    some s!"symbol `{symbol.name}` is not a function: {symbol.kind.outline}"
  | notAVariable kind =>
    some s!"cannot assign a type to a non-variable symbol: {kind.outline}"
  | untypedExpression => some "expression was not type checked"
  | notAnInteger ty => some s!"cannot build an integer constant of type {ty.outline}"
  | notAFloat ty => some s!"{ty.outline} is not a floating point type"
  | floatLiteral ty => some (unreachable s!"float literal typed as {ty.outline}")
  | voidValue => some "void call used as a value"
  | unexpectedReturnValue => some "return value in a function without one"
  | undeclaredSlot name =>
    some s!"variable `{name}` is used before its declaration was lowered"
  | unallocated name => some s!"variable `{name}` was never allocated"
  | foreignPoolEntry constant => some s!"{constant.outline} does not belong in the float pool"
  | integerInFloatRegister ty =>
    some (unreachable s!"integer value of type {ty.outline} in an xmm register")
  | booleanIdentityCast => some "cast from @bool to @bool reached code generation"
  | unsignedToFloat => some "conversion from @u64 to floating point is not implemented"
  | floatToUnsigned => some "conversion from floating point to @u64 is not implemented"
  | registerSize bytes => some s!"invalid size in bytes {bytes}"

end Fault

end Cinder
