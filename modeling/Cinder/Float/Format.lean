import Cinder.Ty

/-!
# Binary floating point encodings

A floating point value is kept as the bits of its interchange encoding.  This
module reads the bits as a signed number `significand * 2 ^ exponent` and, in
the other direction, rounds an exact quotient to the nearest encoding.
-/

namespace Cinder

namespace FloatWidth

def fractionBits : FloatWidth → Nat
  | w32 => 23
  | w64 => 52

def exponentBits : FloatWidth → Nat
  | w32 => 8
  | w64 => 11

def minExponent : FloatWidth → Int
  | w32 => -149
  | w64 => -1074

/-- The leading bit of a significand, which is not stored: fractions lie below it. -/
def leadingBit (w : FloatWidth) : Nat :=
  1 <<< w.fractionBits

/-- The exponent field of infinities and NaNs, with all bits set. -/
def topExponent (w : FloatWidth) : Nat :=
  (1 <<< w.exponentBits) - 1

def infinityBits (w : FloatWidth) : Nat :=
  w.topExponent * w.leadingBit

def quietBit (w : FloatWidth) : Nat :=
  1 <<< (w.fractionBits - 1)

def signBit (w : FloatWidth) : Nat :=
  1 <<< (w.bits - 1)

end FloatWidth

inductive Datum where
  | nan
  | infinity (negative : Bool)
  /-- The number `± significand * 2 ^ exponent`. -/
  | finite (negative : Bool) (significand : Nat) (exponent : Int)
deriving DecidableEq, Repr

namespace Datum

def isZero : Datum → Bool
  | .finite _ 0 _ => true
  | _ => false

def isFinite : Datum → Bool
  | .finite .. => true
  | _ => false

/-- The number cut off toward zero, kept within `lo` and `hi`.  NaN gives zero. -/
def truncate (lo hi : Int) : Datum → Int
  | .nan => 0
  | .infinity negative => if negative then lo else hi
  | .finite negative m e =>
    let magnitude : Nat := if e < 0 then m >>> (-e).toNat else m <<< e.toNat
    let value : Int := if negative then -magnitude else magnitude
    max lo (min hi value)

end Datum

abbrev FloatBits (w : FloatWidth) := BitVec w.bits

namespace FloatBits

variable {w : FloatWidth}

def isNegative (x : FloatBits w) : Bool :=
  x.msb

def magnitude (x : FloatBits w) : Nat :=
  x.toNat % w.signBit

def withSign (negative : Bool) (magnitude : Nat) : FloatBits w :=
  BitVec.ofNat _ (if negative then w.signBit + magnitude else magnitude)

def datum (x : FloatBits w) : Datum :=
  let exponent := x.magnitude / w.leadingBit
  let fraction := x.magnitude % w.leadingBit
  if exponent = w.topExponent then
    if fraction = 0 then .infinity x.isNegative else .nan
  else if exponent = 0 then
    .finite x.isNegative fraction w.minExponent
  else
    .finite x.isNegative (w.leadingBit + fraction) (w.minExponent + exponent - 1)

def isNaN (x : FloatBits w) : Bool :=
  x.magnitude > w.infinityBits

def infinity (negative : Bool) : FloatBits w :=
  withSign negative w.infinityBits

def zero (negative : Bool) : FloatBits w :=
  withSign negative 0

def invalid : FloatBits w :=
  withSign true (w.infinityBits + w.quietBit)

def quiet (x : FloatBits w) : FloatBits w :=
  x ||| BitVec.ofNat _ w.quietBit

def hex (x : FloatBits w) : String :=
  let digits := Nat.toDigits 16 x.toNat
  "0x" ++ String.ofList (List.replicate (w.bits / 4 - digits.length) '0' ++ digits)

def negate (x : FloatBits w) : FloatBits w :=
  withSign (!x.isNegative) x.magnitude

end FloatBits

/-- The largest `k` with `2 ^ k ≤ num / den`, for positive `num` and `den`. -/
def quotientLog2 (num den : Nat) : Int :=
  let k : Int := (num.log2 : Int) - den.log2
  let reached : Bool :=
    if k < 0 then den ≤ num <<< (-k).toNat else den <<< k.toNat ≤ num
  if reached then k else k - 1

/-- Nearest natural number to `num / den`; a tie goes to the even neighbour. -/
def roundQuotient (num den : Nat) : Nat :=
  let q := num / den
  let r := num % den
  if 2 * r > den ∨ (2 * r = den ∧ q % 2 = 1) then q + 1 else q

/-- The encoding nearest to `± num / den * 2 ^ exponent`, ties to even.  The last
place is that of the leading bit or of the smallest numbers, whichever is higher;
a carry out of the significand moves on to the next exponent by itself. -/
def FloatBits.round (w : FloatWidth) (negative : Bool) (num den : Nat) (exponent : Int) :
    FloatBits w :=
  if num = 0 then FloatBits.zero negative
  else
    let last := max w.minExponent (quotientLog2 num den + exponent - w.fractionBits)
    let shift := exponent - last
    let significand :=
      if shift < 0 then roundQuotient num (den <<< (-shift).toNat)
      else roundQuotient (num <<< shift.toNat) den
    let bits := (last - w.minExponent).toNat * w.leadingBit + significand
    FloatBits.withSign negative (min bits w.infinityBits)

end Cinder
