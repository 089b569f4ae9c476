import Cinder.Failure
import Cinder.Program.Basic

/-!
# Typing rules

Which type a literal takes, which type two operands have in common, and which
conversions exist.
-/

namespace Cinder

namespace Ty

/-- Whether an integer is in the range of a type.  Only integer types have a
range. -/
def holds (value : Int) : Ty → Bool
  | .int width true =>
    (BitVec.intMin width.bits).toInt ≤ value && value ≤ (BitVec.intMax width.bits).toInt
  | .int width false => 0 ≤ value && value ≤ (BitVec.allOnes width.bits).toNat
  | _ => true

/-- The type that operands of two types are converted to.  Floating point beats
integer and wider beats narrower; among integers of one width the left operand
decides.  A boolean goes only with a boolean. -/
def unify (lhs rhs : Ty) : Option Ty :=
  if lhs = rhs then some lhs
  else match lhs, rhs with
    | .bool, _ => none
    | _, .bool => none
    | .float a, .float b => some (.float (if a.bits < b.bits then b else a))
    | .float _, .int .. => some lhs
    | .int .., .float _ => some rhs
    | .int a _, .int b _ => some (if a.bits < b.bits then rhs else lhs)

/-- Whether values of one type can be converted to another: the widest unsigned
integers and the floating point types cannot, in either direction. -/
def converts (source target : Ty) : Bool :=
  !((source == u64 && target.isFloating) || (source.isFloating && target == u64))

end Ty

def requireConversion (source target : Ty) (span : Span) : Except Failure Unit :=
  if source.converts target then .ok ()
  else reject (.unsupportedConversion source target) span

namespace Literal

/-- The type of an integer where the context asks for none. -/
def defaultIntegerType (value : Int) : Ty :=
  ([Ty.s32, Ty.s64, Ty.u64].find? (Ty.holds value)).getD Ty.s64

/-- The type of an integer.  It takes any numeric type the context expects, if
it is in its range. -/
def integerType (value : Int) (expected : Option Ty) (span : Span) : Except Failure Ty :=
  match expected with
  | some (.float width) => .ok (.float width)
  | some (.int width signed) =>
    if Ty.holds value (.int width signed) then .ok (.int width signed)
    else reject (.literalRange value (.int width signed)) span
  | _ => .ok (defaultIntegerType value)

/-- The type of a literal; `negated` tells that a minus sign stands before it. -/
def type (literal : Literal) (negated : Bool) (expected : Option Ty) (span : Span) :
    Except Failure Ty :=
  match literal with
  | .boolean _ => .ok .bool
  | .float _ =>
    match expected with
    | some (.float width) => .ok (.float width)
    | _ => .ok Ty.f64
  | .integer value => integerType (if negated then -(value : Int) else value) expected span

end Literal

end Cinder
