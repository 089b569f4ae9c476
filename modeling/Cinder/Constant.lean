import Cinder.Float.Arithmetic
import Cinder.Float.Decimal
import Cinder.Operator

/-!
# Constants

A constant carries its type.  Integers are bit vectors of the width of their
type, so a constant out of range cannot be written down; floating point
constants are compared by their bits.
-/

namespace Cinder

inductive Constant where
  | int (width : Width) (signed : Bool) (bits : BitVec width.bits)
  | float (width : FloatWidth) (bits : FloatBits width)
  | bool (value : Bool)
deriving DecidableEq, Repr

namespace Constant

def ofInt (width : Width) (signed : Bool) (value : Int) : Constant :=
  .int width signed (BitVec.ofInt width.bits value)

def ty : Constant → Ty
  | .int width signed _ => .int width signed
  | .float width _ => .float width
  | .bool _ => .bool

def toInt? : Constant → Option Int
  | .int _ true bits => some bits.toInt
  | .int _ false bits => some bits.toNat
  | .float .. => none
  | .bool value => some (if value then 1 else 0)

def toFloat? : Constant → Option (FloatBits .w64)
  | .float .w32 x => some (x.convert .w64)
  | .float .w64 x => some x
  | _ => none

def isZero : Constant → Bool
  | .float _ x => x.datum.isZero
  | c => c.toInt? == some 0

/-- Range a floating point value is brought into before it is cut to an integer
type: the narrow types go through a 32-bit register. -/
def truncationRange : Width → Bool → Int × Int
  | .w64, false => (0, (BitVec.allOnes 64).toNat)
  | .w64, true => ((BitVec.intMin 64).toInt, (BitVec.intMax 64).toInt)
  | .w32, false => ((BitVec.intMin 64).toInt, (BitVec.intMax 64).toInt)
  | _, _ => ((BitVec.intMin 32).toInt, (BitVec.intMax 32).toInt)

/-- Conversion to another type: integers are reduced to the width, floating
point values cut off toward zero or rounded, and anything non-zero is true. -/
def cast (c : Constant) : Ty → Constant
  | .bool => .bool !c.isZero
  | .int width signed =>
    match c with
    | .float _ x =>
      let (lo, hi) := truncationRange width signed
      ofInt width signed (x.datum.truncate lo hi)
    | c => ofInt width signed (c.toInt?.getD 0)
  | .float width =>
    match c, width with
    | .float .w32 x, .w64 => .float .w64 (x.convert .w64)
    | .float .w64 x, .w32 => .float .w32 (x.convert .w32)
    | .float v x, _ => .float v x
    | c, width => .float width (FloatBits.ofInt width (c.toInt?.getD 0))

def floatBinary {w : FloatWidth} (op : Operator) (x y : FloatBits w) : Constant :=
  match op with
  | .add => .float w (x.add y)
  | .sub => .float w (x.sub y)
  | .mul => .float w (x.mul y)
  | .div => .float w (x.div y)
  | .greater => .bool (y.lt x)
  | .less => .bool (x.lt y)

abbrev Wide := BitVec 128

def widen (signed : Bool) {n : Nat} (bits : BitVec n) : Wide :=
  if signed then bits.signExtend 128 else bits.setWidth 128

def ofWide (width : Width) (signed : Bool) (value : Wide) : Constant :=
  .int width signed (value.setWidth width.bits)

/-- A binary operation on two integers of one type: the calculation wraps around at
128 bits, and its result is cut to the type.  Division goes toward zero and has no
value for a zero divisor. -/
def intBinary (width : Width) (signed : Bool) (op : Operator) (a b : Wide) : Option Constant :=
  match op with
  | .add => some (ofWide width signed (a + b))
  | .sub => some (ofWide width signed (a - b))
  | .mul => some (ofWide width signed (a * b))
  | .div => if b = 0 then none else some (ofWide width signed (a.sdiv b))
  | .greater => some (.bool (b.slt a))
  | .less => some (.bool (a.slt b))

/-- The value of a binary operation, if it has one.  The operands must be of the
same type, and booleans can only be compared. -/
def binary (op : Operator) : Constant → Constant → Option Constant
  | .float .w32 x, .float .w32 y => some (floatBinary op x y)
  | .float .w64 x, .float .w64 y => some (floatBinary op x y)
  | .bool a, .bool b =>
    match op with
    | .greater => some (.bool (a && !b))
    | .less => some (.bool (!a && b))
    | _ => none
  | .int width signed a, .int width' signed' b =>
    if width = width' ∧ signed = signed' then
      intBinary width signed op (widen signed a) (widen signed' b)
    else none
  | _, _ => none

def display (c : Constant) : String :=
  match c with
  | .float _ x => x.display
  | .bool value => toString value
  | c => toString (c.toInt?.getD 0)

def outline (c : Constant) : String :=
  match c with
  | .int width true _ => s!"S{width.bits}({c.display})"
  | .int width false _ => s!"U{width.bits}({c.display})"
  | .float width _ => s!"F{width.bits}({c.display})"
  | .bool _ => s!"Bool({c.display})"

end Constant

end Cinder
