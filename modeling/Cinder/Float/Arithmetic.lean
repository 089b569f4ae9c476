import Cinder.Float.Format

/-!
# Floating point arithmetic

Every operation is carried out on exact numbers and rounded once, to nearest
with ties to even.  A NaN operand is passed on, the left one first.
-/

namespace Cinder

namespace FloatBits

variable {w : FloatWidth}

/-- Applies an operation to two numbers, passing on the first NaN. -/
def lift (op : Datum → Datum → FloatBits w) (x y : FloatBits w) : FloatBits w :=
  if x.isNaN then x.quiet
  else if y.isNaN then y.quiet
  else op x.datum y.datum

/-- `± m * 2 ^ (e - low)` as an integer, for `low ≤ e`. -/
private def scaled (negative : Bool) (m : Nat) (e low : Int) : Int :=
  let magnitude : Nat := m <<< (e - low).toNat
  if negative then -magnitude else magnitude

/-- A sum that is exactly zero is negative only if both terms are. -/
def add : FloatBits w → FloatBits w → FloatBits w :=
  lift fun
    | .infinity s, .infinity t => if s = t then infinity s else invalid
    | .infinity s, _ => infinity s
    | _, .infinity t => infinity t
    | .finite s m e, .finite t n f =>
      let low := min e f
      let sum := scaled s m e low + scaled t n f low
      if sum = 0 then zero (s && t)
      else round w (sum < 0) sum.natAbs 1 low
    | _, _ => invalid

def sub (x y : FloatBits w) : FloatBits w :=
  if y.isNaN then add x y else add x y.negate

def mul : FloatBits w → FloatBits w → FloatBits w :=
  lift fun
    | .infinity s, .infinity t => infinity (s != t)
    | .infinity s, .finite t n _ => if n = 0 then invalid else infinity (s != t)
    | .finite s m _, .infinity t => if m = 0 then invalid else infinity (s != t)
    | .finite s m e, .finite t n f => round w (s != t) (m * n) 1 (e + f)
    | _, _ => invalid

def div : FloatBits w → FloatBits w → FloatBits w :=
  lift fun
    | .infinity _, .infinity _ => invalid
    | .infinity s, .finite t _ _ => infinity (s != t)
    | .finite s _ _, .infinity t => zero (s != t)
    | .finite s m e, .finite t n f =>
      if n = 0 then
        if m = 0 then invalid else infinity (s != t)
      else round w (s != t) m n (e - f)
    | _, _ => invalid

/-- Strict order of numbers; NaN is not below or above anything. -/
def lt (x y : FloatBits w) : Bool :=
  match x.datum, y.datum with
  | .infinity s, .infinity t => s && !t
  | .infinity s, .finite .. => s
  | .finite .., .infinity t => !t
  | .finite s m e, .finite t n f =>
    let low := min e f
    scaled s m e low < scaled t n f low
  | _, _ => false

/-- The nearest value of another width.  A NaN keeps the leading bits of its
fraction. -/
def convert (v : FloatWidth) (x : FloatBits w) : FloatBits v :=
  match x.datum with
  | .infinity s => infinity s
  | .finite s m e => round v s m 1 e
  | .nan =>
    let fraction := x.magnitude % w.leadingBit
    quiet (withSign x.isNegative
      (v.infinityBits + fraction * v.leadingBit / w.leadingBit))

def ofInt (w : FloatWidth) (value : Int) : FloatBits w :=
  round w (value < 0) value.natAbs 1 0

/-- The value nearest to `digits * 10 ^ exponent`.  Exponents far outside the
range of the width are cut off before any power is formed. -/
def ofDecimal (w : FloatWidth) (digits : Nat) (exponent : Int) : FloatBits w :=
  let leading : Int := exponent + (Nat.toDigits 10 digits).length
  if digits = 0 then zero false
  else if leading > 400 then infinity false
  else if leading < -400 then zero false
  else if exponent < 0 then round w false digits (Nat.pow 10 (-exponent).toNat) 0
  else round w false (digits * Nat.pow 10 exponent.toNat) 1 0

end FloatBits

end Cinder
