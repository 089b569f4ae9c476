import Cinder.Constant
import Cinder.Proofs.Integers

/-!
# Arithmetic of integer constants

Operations on integer constants are carried out with 128 bits, where a product of two
64-bit integers may wrap around, and the result is cut to the type of the operands.  What
wraps around is cut off with the other high bits, so the result is the exact one reduced to
the type.
-/

namespace Cinder

namespace Constant

variable {k : Constant} {n : Int} {width : Width} {signed : Bool}

/-! ## Reduction to a type -/

theorem toInt?_int (width : Width) (signed : Bool) (bits : BitVec width.bits) :
    (Constant.int width signed bits).toInt? = some (reading signed bits) := by
  cases signed <;> rfl

/-- A constant is what is left of an integer in a type: congruent to it and in range, or
whether it is not zero. -/
def Reduces (k : Constant) (n : Int) : Ty → Prop
  | .int width signed => k.ty = .int width signed ∧
      ∃ m, k.toInt? = some m ∧ (Ty.int width signed).Admits m ∧ (2 ^ width.bits : Int) ∣ n - m
  | .bool => k = .bool (n ≠ 0)
  | .float _ => False

theorem reduces_ofInt (width : Width) (signed : Bool) (n : Int) :
    (ofInt width signed n).Reduces n (.int width signed) := by
  refine ⟨rfl, _, toInt?_int .., admits_reading .., ?_⟩
  rw [← ofInt_eq_ofInt_iff, ofInt_reading]

theorem ofInt_inj {a b : Int} :
    ofInt width signed a = ofInt width signed b ↔ (2 ^ width.bits : Int) ∣ a - b := by
  rw [ofInt, ofInt, Constant.int.injEq, ← ofInt_eq_ofInt_iff]
  simp only [true_and, heq_eq_eq]

theorem reduces_int_iff : k.Reduces n (.int width signed) ↔ k = ofInt width signed n := by
  constructor
  · rintro ⟨hty, m, hm, -, hdvd⟩
    cases k with
    | int width' signed' bits =>
      cases hty
      rw [toInt?_int] at hm
      cases hm
      rw [ofInt_inj.2 hdvd, ofInt, ofInt_reading]
    | float => cases hty
    | bool => cases hty
  · rintro rfl
    exact reduces_ofInt width signed n

/-! ## Calculation with 128 bits -/

theorem widen_eq_ofInt (signed : Bool) {n : Nat} (bits : BitVec n) :
    widen signed bits = BitVec.ofInt 128 (reading signed bits) := by
  cases signed with
  | true => rfl
  | false =>
    change bits.setWidth 128 = BitVec.ofInt 128 bits.toNat
    rw [BitVec.ofInt_natCast, BitVec.ofNat_toNat]

/-- 128 bits with a sign are enough for the integers of every type. -/
theorem toInt_widen (signed : Bool) {width : Width} (bits : BitVec width.bits) :
    (widen signed bits).toInt = reading signed bits := by
  have hword := (admits_reading width signed bits).word
  have hrange : -2 ^ 63 ≤ reading signed bits ∧ reading signed bits < 2 ^ 64 := by
    cases signed with
    | true => exact ⟨hword.1, lt_trans hword.2 (by decide)⟩
    | false => exact ⟨le_trans (by decide) hword.1, hword.2⟩
  rw [widen_eq_ofInt, BitVec.toInt_ofInt]
  apply Int.bmod_eq_of_le <;> omega

theorem ofWide_ofInt (width : Width) (signed : Bool) (n : Int) :
    ofWide width signed (BitVec.ofInt 128 n) = ofInt width signed n := by
  rw [ofWide, ofInt, setWidth_ofInt (by cases width <;> decide)]

theorem sdiv_widen (signed : Bool) {width : Width} (a b : BitVec width.bits) :
    (widen signed a).sdiv (widen signed b) =
      BitVec.ofInt 128 ((reading signed a).tdiv (reading signed b)) := by
  apply BitVec.eq_of_toInt_eq
  rw [BitVec.toInt_sdiv, toInt_widen, toInt_widen, BitVec.toInt_ofInt]

theorem slt_widen (signed : Bool) {width : Width} (a b : BitVec width.bits) :
    (widen signed a).slt (widen signed b) = decide (reading signed a < reading signed b) := by
  rw [BitVec.slt, toInt_widen, toInt_widen]

theorem widen_eq_zero_iff (signed : Bool) {width : Width} (bits : BitVec width.bits) :
    widen signed bits = 0 ↔ reading signed bits = 0 := by
  rw [← BitVec.toInt_inj, toInt_widen]
  rfl

/-! ## Operations -/

def exactBinary (width : Width) (signed : Bool) (op : Operator) (m n : Int) : Option Constant :=
  match op with
  | .add => some (ofInt width signed (m + n))
  | .sub => some (ofInt width signed (m - n))
  | .mul => some (ofInt width signed (m * n))
  | .div => if n = 0 then none else some (ofInt width signed (m.tdiv n))
  | .greater => some (.bool (m > n))
  | .less => some (.bool (m < n))

/-- What wraps around is cut off afterwards. -/
theorem intBinary_widen (op : Operator) (width : Width) (signed : Bool) (a b : BitVec width.bits) :
    intBinary width signed op (widen signed a) (widen signed b) =
      exactBinary width signed op (reading signed a) (reading signed b) := by
  cases op with
  | add =>
    rw [intBinary, widen_eq_ofInt, widen_eq_ofInt, ← BitVec.ofInt_add, ofWide_ofInt, exactBinary]
  | sub => rw [intBinary, widen_eq_ofInt, widen_eq_ofInt, sub_ofInt, ofWide_ofInt, exactBinary]
  | mul =>
    rw [intBinary, widen_eq_ofInt, widen_eq_ofInt, ← BitVec.ofInt_mul, ofWide_ofInt, exactBinary]
  | div =>
    rw [intBinary, sdiv_widen, ofWide_ofInt, exactBinary]
    simp only [widen_eq_zero_iff]
  | greater => rw [intBinary, slt_widen, exactBinary]
  | less => rw [intBinary, slt_widen, exactBinary]

theorem binary_int (op : Operator) (width : Width) (signed : Bool) (a b : BitVec width.bits) :
    Constant.binary op (.int width signed a) (.int width signed b) =
      exactBinary width signed op (reading signed a) (reading signed b) := by
  rw [binary, if_pos ⟨rfl, rfl⟩, intBinary_widen]

theorem binary_int_of_ne {width' : Width} {signed' : Bool} (op : Operator) (a : BitVec width.bits)
    (b : BitVec width'.bits) (h : Ty.int width signed ≠ Ty.int width' signed') :
    Constant.binary op (.int width signed a) (.int width' signed' b) = none := by
  rw [binary, if_neg]
  rintro ⟨rfl, rfl⟩
  exact h rfl

end Constant

/-- A result is the one constant that is left of an integer in a type. -/
def IsReduction (n : Int) (ty : Ty) (result : Option Constant) : Prop :=
  ∃ c, result = some c ∧ ∀ k : Constant, k.Reduces n ty ↔ k = c

theorem isReduction_ofInt (n : Int) (width : Width) (signed : Bool) :
    IsReduction n (.int width signed) (some (.ofInt width signed n)) :=
  ⟨_, rfl, fun _ => Constant.reduces_int_iff⟩

/-- A result is that of exact arithmetic with two integers of a type: sums, differences,
products and quotients are reduced to the type, and only a division by zero has none. -/
def Operator.IsExact (ty : Ty) (m n : Int) (result : Option Constant) : Operator → Prop
  | .add => IsReduction (m + n) ty result
  | .sub => IsReduction (m - n) ty result
  | .mul => IsReduction (m * n) ty result
  | .div => (result = none ↔ n = 0) ∧ (n ≠ 0 → IsReduction (m.tdiv n) ty result)
  | .greater => result = some (.bool (m > n))
  | .less => result = some (.bool (m < n))

theorem Operator.isExact_exactBinary (op : Operator) (width : Width) (signed : Bool) (m n : Int) :
    op.IsExact (.int width signed) m n (Constant.exactBinary width signed op m n) := by
  cases op with
  | add => exact isReduction_ofInt ..
  | sub => exact isReduction_ofInt ..
  | mul => exact isReduction_ofInt ..
  | div =>
    by_cases hzero : n = 0
    · rw [Constant.exactBinary, if_pos hzero]
      exact ⟨iff_of_true rfl hzero, fun h => absurd hzero h⟩
    · rw [Constant.exactBinary, if_neg hzero]
      exact ⟨iff_of_false (Option.some_ne_none _) hzero, fun _ => isReduction_ofInt ..⟩
  | greater => rfl
  | less => rfl

/-- Operations on two integer constants have no value if the types differ, and are exact
otherwise. -/
theorem Constant.isExact_binary {a b : Constant} {width width' : Width} {signed signed' : Bool}
    (ha : a.ty = .int width signed) (hb : b.ty = .int width' signed') (op : Operator) :
    ∃ m n, a.toInt? = some m ∧ a.ty.Admits m ∧ b.toInt? = some n ∧ b.ty.Admits n ∧
      (a.ty ≠ b.ty → a.binary op b = none) ∧
      (a.ty = b.ty → op.IsExact a.ty m n (a.binary op b)) := by
  cases a with
  | float => cases ha
  | bool => cases ha
  | int width signed x =>
      cases b with
      | float => cases hb
      | bool => cases hb
      | int width' signed' y =>
          refine ⟨_, _, toInt?_int .., admits_reading .., toInt?_int .., admits_reading ..,
            binary_int_of_ne op x y, fun h => ?_⟩
          cases h
          rw [binary_int]
          exact op.isExact_exactBinary width signed _ _

/-- The square of the greatest unsigned 64-bit integer does not fit 128 bits with a sign, and
is still one modulo 2 ^ 64. -/
theorem Constant.isExact_binary_allOnes :
    (Constant.int .w64 false (.allOnes 64)).ty = Ty.u64 ∧
      (Constant.int .w64 false (.allOnes 64)).toInt? = some (2 ^ 64 - 1) ∧
      IsReduction ((2 ^ 64 - 1) * (2 ^ 64 - 1)) Ty.u64
        (Constant.binary .mul (.int .w64 false (.allOnes 64)) (.int .w64 false (.allOnes 64))) ∧
      Constant.binary .mul (.int .w64 false (.allOnes 64)) (.int .w64 false (.allOnes 64)) =
        some (.int .w64 false 1) := by
  have hvalue : (Constant.int .w64 false (.allOnes 64)).toInt? = some (2 ^ 64 - 1) := by decide
  obtain ⟨m, n, hm, -, hn, -, -, hexact⟩ :=
    Constant.isExact_binary (a := .int .w64 false (.allOnes 64))
      (b := .int .w64 false (.allOnes 64)) rfl rfl .mul
  cases hm.symm.trans hvalue
  cases hn.symm.trans hvalue
  exact ⟨rfl, hvalue, hexact rfl, by decide⟩

end Cinder
