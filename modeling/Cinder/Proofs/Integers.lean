import Cinder.Typing.Rules
import Mathlib.Algebra.Order.Ring.Int

/-!
# Integers and their bits

Which integers a type has, and how bits stand for them with and without a sign.
-/

namespace Cinder

variable {n : Nat} {width : Width} {signed : Bool}

def Ty.Admits (n : Int) : Ty → Prop
  | .int width true => -2 ^ (width.bits - 1) ≤ n ∧ n < 2 ^ (width.bits - 1)
  | .int width false => 0 ≤ n ∧ n < 2 ^ width.bits
  | _ => False

theorem Ty.holds_int_iff {n : Int} :
    Ty.holds n (.int width signed) = true ↔ (Ty.int width signed).Admits n := by
  cases signed with
  | true =>
    have hmin : (BitVec.intMin width.bits).toInt = -2 ^ (width.bits - 1) := by
      cases width <;> decide
    have hmax : (BitVec.intMax width.bits).toInt = 2 ^ (width.bits - 1) - 1 := by
      cases width <;> decide
    rw [holds, hmin, hmax, Bool.and_eq_true, decide_eq_true_iff, decide_eq_true_iff, Admits]
    omega
  | false =>
    have hmax : ((BitVec.allOnes width.bits).toNat : Int) = 2 ^ width.bits - 1 := by
      cases width <;> decide
    rw [holds, hmax, Bool.and_eq_true, decide_eq_true_iff, decide_eq_true_iff, Admits]
    omega

def reading (signed : Bool) {n : Nat} (bits : BitVec n) : Int :=
  if signed then bits.toInt else bits.toNat

theorem reading_inj (signed : Bool) {a b : BitVec n} :
    reading signed a = reading signed b ↔ a = b := by
  cases signed with
  | true => exact BitVec.toInt_inj
  | false => exact Int.natCast_inj.trans BitVec.toNat_inj

theorem ofInt_reading (signed : Bool) (bits : BitVec n) :
    BitVec.ofInt n (reading signed bits) = bits := by
  cases signed with
  | true => exact BitVec.ofInt_toInt
  | false =>
    exact (BitVec.ofInt_natCast n _).trans (BitVec.ofNat_toNat n bits |>.trans bits.setWidth_eq)

theorem reading_ofInt_iff (width : Width) {n : Int} :
    reading signed (BitVec.ofInt width.bits n) = n ↔ (Ty.int width signed).Admits n := by
  have hcast : ((2 ^ width.bits : Nat) : Int) = 2 ^ width.bits := Nat.cast_pow 2 _
  cases signed with
  | true =>
    have hpow : (2 ^ width.bits : Int) = 2 * 2 ^ (width.bits - 1) := by cases width <;> decide
    change (BitVec.ofInt width.bits n).toInt = n ↔ _
    rw [BitVec.toInt_ofInt, Int.bmod_eq_iff (Nat.two_pow_pos _), Ty.Admits, sub_self,
      eq_true (Int.dvd_zero _), and_true, hcast]
    omega
  | false =>
    have hpos : (0 : Int) < 2 ^ width.bits := by cases width <;> decide
    change ((BitVec.ofInt width.bits n).toNat : Int) = n ↔ _
    rw [BitVec.toNat_ofInt, Ty.Admits, hcast]
    constructor
    · intro h
      have := Int.emod_nonneg n hpos.ne'
      have := Int.emod_lt_of_pos n hpos
      omega
    · rintro ⟨hlow, hhigh⟩
      rw [Int.emod_eq_of_lt hlow hhigh]
      omega

theorem admits_reading (width : Width) (signed : Bool) (bits : BitVec width.bits) :
    (Ty.int width signed).Admits (reading signed bits) :=
  (reading_ofInt_iff width).1 (by rw [ofInt_reading])

theorem Ty.Admits.word {n : Int} (h : (Ty.int width signed).Admits n) :
    (Ty.int .w64 signed).Admits n := by
  cases signed with
  | true =>
    have hpow : (2 ^ (width.bits - 1) : Int) ≤ 2 ^ 63 := by cases width <;> decide
    exact ⟨le_trans (neg_le_neg hpow) h.1, lt_of_lt_of_le h.2 hpow⟩
  | false =>
    have hpow : (2 ^ width.bits : Int) ≤ 2 ^ 64 := by cases width <;> decide
    exact ⟨h.1, lt_of_lt_of_le h.2 hpow⟩

theorem reading_ofInt_reading (signed : Bool) (bits : BitVec width.bits) :
    reading signed (BitVec.ofInt 64 (reading signed bits)) = reading signed bits :=
  (reading_ofInt_iff .w64).2 (admits_reading width signed bits).word

/-- Bits are the same for integers that differ by a multiple of their number. -/
theorem ofInt_eq_ofInt_iff {a b : Int} :
    BitVec.ofInt n a = BitVec.ofInt n b ↔ (2 ^ n : Int) ∣ a - b := by
  have hcast : ((2 ^ n : Nat) : Int) = 2 ^ n := Nat.cast_pow 2 n
  rw [← BitVec.toInt_inj, BitVec.toInt_ofInt, BitVec.toInt_ofInt,
    Int.bmod_eq_bmod_iff_bmod_sub_eq_zero, ← Int.dvd_iff_bmod_eq_zero, hcast]

theorem sub_ofInt (w : Nat) (m n : Int) :
    BitVec.ofInt w m - BitVec.ofInt w n = BitVec.ofInt w (m - n) := by
  rw [Int.sub_eq_add_neg, BitVec.ofInt_add, BitVec.ofInt_neg, BitVec.sub_eq_add_neg]

/-- The low bits of an integer do not depend on how many others there are. -/
theorem setWidth_ofInt {m : Nat} (h : m ≤ n) (k : Int) :
    (BitVec.ofInt n k).setWidth m = BitVec.ofInt m k := by
  rw [← BitVec.signExtend_eq_setWidth_of_le _ h]
  apply BitVec.eq_of_toInt_eq
  rw [BitVec.toInt_signExtend, BitVec.toInt_ofInt, BitVec.toInt_ofInt, Nat.min_eq_left h]
  exact Int.bmod_bmod_of_dvd (Nat.pow_dvd_pow 2 h)

end Cinder
