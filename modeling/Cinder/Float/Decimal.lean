import Cinder.Float.Format

/-!
# Shortest decimal text of floating point values

`shortest` finds, for the exact value of an encoding, the fewest decimal digits
that read back as the same encoding, and of those the nearest.  Two layouts
write such digits out: `display` for listings and `scientific` for data
directives.
-/

namespace Cinder

structure Decimal where
  digits : Nat
  exponent : Int
deriving DecidableEq, Repr

namespace Decimal

/-- The largest `k` with `10 ^ k ≤ num / den`, for positive `num` and `den`. -/
def quotientLog10 (num den : Nat) : Int :=
  if den ≤ num then ((Nat.toDigits 10 (num / den)).length : Int) - 1
  else
    let places := (Nat.toDigits 10 (den / num)).length
    if den ≤ num * Nat.pow 10 (places - 1) then 1 - (places : Int) else -(places : Int)

/-- `m * 2 ^ e` in units of `10 ^ unit`, as a quotient. -/
def inUnits (m : Nat) (e unit : Int) : Nat × Nat :=
  ((m <<< e.toNat) * Nat.pow 10 (-unit).toNat, (1 <<< (-e).toNat) * Nat.pow 10 unit.toNat)

/-- The set of reals between two quotients of one denominator, with or without its
ends. -/
structure Interval where
  low : Nat
  high : Nat
  den : Nat
  closed : Bool

namespace Interval

def contains (i : Interval) (n : Nat) : Bool :=
  if i.closed then i.low ≤ n * i.den && n * i.den ≤ i.high
  else i.low < n * i.den && n * i.den < i.high

end Interval

/-- Of the two multiples of `10 ^ unit` around the number `4 * m * 2 ^ (e - 2)`,
the nearer one that lies in the given interval around it.  A tie goes up. -/
def candidate (m below : Nat) (e unit : Int) : Option Nat :=
  let (num, den) := inUnits (4 * m) (e - 2) unit
  let step := num / (4 * m)
  let interval : Interval :=
    { low := num - below * step, high := num + 2 * step, den := den, closed := m % 2 = 0 }
  let down := num / den
  let nearer := if 2 * (num % den) < den then [down, down + 1] else [down + 1, down]
  nearer.find? interval.contains

def strip : Nat → Decimal → Decimal
  | 0, d => d
  | n + 1, d =>
    if d.digits ≠ 0 ∧ d.digits % 10 = 0 then strip n ⟨d.digits / 10, d.exponent + 1⟩ else d

/-- The fewest digits that read back as `m * 2 ^ e` at width `w`.  Seventeen
digits are enough for either width. -/
def shortest (w : FloatWidth) (m : Nat) (e : Int) : Decimal :=
  let (num, den) := inUnits m e 0
  let top := quotientLog10 num den
  -- the predecessor of a power of two is only half as far away
  let below := if m = w.leadingBit ∧ w.minExponent < e then 1 else 2
  let found := (List.range 17).findSome? fun (n : Nat) =>
    (candidate m below e (top - n)).map fun digits => Decimal.mk digits (top - n)
  strip 17 (found.getD ⟨num / den, 0⟩)

def text (d : Decimal) : String :=
  String.ofList (Nat.toDigits 10 d.digits)

def leading (d : Decimal) : Int :=
  (Nat.toDigits 10 d.digits).length - 1 + d.exponent

def scientific (d : Decimal) : String :=
  match Nat.toDigits 10 d.digits with
  | [] => ""
  | [digit] => s!"{digit}e{d.leading}"
  | digit :: rest => s!"{digit}.{String.ofList rest}e{d.leading}"

def positional (d : Decimal) : String :=
  let digits := Nat.toDigits 10 d.digits
  if d.leading < 0 then
    "0." ++ String.ofList (List.replicate (-d.leading - 1).toNat '0' ++ digits)
  else
    let whole := d.leading.toNat + 1
    let fraction := digits.drop whole
    String.ofList (digits.take whole ++ List.replicate (whole - digits.length) '0') ++ "."
      ++ (if fraction.isEmpty then "0" else String.ofList fraction)

end Decimal

namespace FloatBits

variable {w : FloatWidth}

/-- Text of a value, given how to write zero and how to write other magnitudes. -/
private def writeWith (zero : String) (write : Decimal → String) (x : FloatBits w) : String :=
  match x.datum with
  | .nan => "NaN"
  | .infinity negative => if negative then "-inf" else "inf"
  | .finite negative m e =>
    let magnitude := if m = 0 then zero else write (Decimal.shortest w m e)
    if negative then "-" ++ magnitude else magnitude

/-- Text in listings: positional from `1e-4` up to `1e16`, otherwise with an
exponent. -/
def display (x : FloatBits w) : String :=
  writeWith "0.0"
    (fun d => if -4 ≤ d.leading ∧ d.leading < 16 then d.positional else d.scientific) x

def scientific (x : FloatBits w) : String :=
  writeWith "0e0" Decimal.scientific x

end FloatBits

end Cinder
