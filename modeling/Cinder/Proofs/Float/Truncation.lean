import Cinder.Float.Format
import Mathlib.Algebra.GroupWithZero.Nat
import Mathlib.Data.Rat.Floor

/-!
# Numbers without their fractions

The number that an encoding stands for as a rational, and what is left of it when it is cut
off toward zero.  Shifting the significand cuts a number off in this way.
-/

namespace Cinder

def wholePart (q : ℚ) : Int :=
  if q < 0 then ⌈q⌉ else ⌊q⌋

theorem wholePart_neg {q : ℚ} (h : 0 ≤ q) : wholePart (-q) = -⌊q⌋ := by
  unfold wholePart
  split
  · exact Int.ceil_neg
  · rename_i hneg
    have hzero : q = 0 := le_antisymm (by simpa using hneg) h
    simp [hzero]

namespace Datum

def value? : Datum → Option ℚ
  | .finite negative m e => some ((if negative then -1 else 1) * (m * 2 ^ e))
  | _ => none

theorem floor_significand (m : Nat) (e : Int) :
    ⌊(m * 2 ^ e : ℚ)⌋ = ((if e < 0 then m >>> (-e).toNat else m <<< e.toNat : Nat) : Int) := by
  split
  · rename_i hneg
    obtain ⟨k, hk⟩ : ∃ k : Nat, -e = k := Int.eq_ofNat_of_zero_le (by omega)
    have hquotient : (m * 2 ^ e : ℚ) = (m : ℚ) / ((2 ^ k : Nat) : ℚ) := by
      rw [← neg_neg e, hk, zpow_neg, zpow_natCast, div_eq_mul_inv, Nat.cast_pow, Nat.cast_ofNat]
    rw [hquotient, Rat.floor_natCast_div_natCast, hk, Int.toNat_natCast,
      Nat.shiftRight_eq_div_pow, Int.natCast_div]
  · rename_i hneg
    obtain ⟨k, rfl⟩ : ∃ k : Nat, e = k := Int.eq_ofNat_of_zero_le (by omega)
    have hproduct : (m * 2 ^ (k : Int) : ℚ) = ((m * 2 ^ k : Nat) : ℚ) := by
      rw [zpow_natCast, Nat.cast_mul, Nat.cast_pow, Nat.cast_ofNat]
    rw [hproduct, Int.floor_natCast, Int.toNat_natCast, Nat.shiftLeft_eq]

theorem truncate_eq {d : Datum} {q : ℚ} (h : d.value? = some q) (lo hi : Int) :
    d.truncate lo hi = max lo (min hi (wholePart q)) := by
  cases d with
  | nan => cases h
  | infinity negative => cases h
  | finite negative m e =>
    have hpos : (0 : ℚ) ≤ m * 2 ^ e := mul_nonneg m.cast_nonneg (zpow_nonneg zero_le_two e)
    obtain rfl := Option.some.inj h
    simp only [truncate, ← floor_significand]
    cases negative with
    | true => rw [if_pos rfl, if_pos rfl, neg_one_mul, wholePart_neg hpos]
    | false =>
      rw [if_neg Bool.false_ne_true, if_neg Bool.false_ne_true, one_mul, wholePart,
        if_neg (not_lt.2 hpos)]

end Datum

end Cinder
