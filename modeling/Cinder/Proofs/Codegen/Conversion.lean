import Cinder.Proofs.Codegen.Constants

/-!
# Conversions at run time

The code of a conversion between integers and booleans leaves what folding the conversion
gives.  From floating point to integers the code cuts off toward zero to 64 bits and keeps
the low bytes, while folding brings the value into a range of its own first.  For most types
that is the range of 32 bits, so the two part on values beyond it.
-/

namespace Cinder

open Codegen Machine

namespace Constant

variable {k : Constant} {n : Int} {width : Width} {signed : Bool}

theorem cast_int (h : k.toInt? = some n) (width : Width) (signed : Bool) :
    k.cast (.int width signed) = ofInt width signed n := by
  cases k with
  | float => cases h
  | int | bool => exact congrArg (fun value => ofInt width signed (value.getD 0)) h

theorem cast_bool (h : k.toInt? = some n) : k.cast .bool = .bool (n ≠ 0) := by
  have hzero : k.isZero = decide (n = 0) := by
    cases k with
    | float => cases h
    | int | bool => exact congrArg (· == some 0) h
  rw [cast, hzero, decide_not]

theorem reduces_cast (h : k.toInt? = some n) {target : Ty}
    (htarget : target.valueClass = .general) : (k.cast target).Reduces n target := by
  cases target with
  | float => cases htarget
  | bool => exact cast_bool h
  | int width signed =>
    rw [cast_int h]
    exact reduces_ofInt width signed n

/-- Whole parts whose low bits folding keeps: all of those for the types that are not brought
into 32 bits first, those within 32 bits, and those beyond with the low bits of the nearest
limit. -/
def KeepsLowBits : Width → Bool → Int → Prop
  | .w64, _, _ => True
  | .w32, false, _ => True
  | width, _, n => Ty.s32.Admits n ∨ (2 ^ 31 ≤ n ∧ (2 ^ width.bits : Int) ∣ n - (2 ^ 31 - 1)) ∨
      (n < -2 ^ 31 ∧ (2 ^ width.bits : Int) ∣ n + 2 ^ 31)

theorem dvd_limited_sub_iff {d n : Int} :
    d ∣ max (-2 ^ 31) (min (2 ^ 31 - 1) n) - n ↔ (-2 ^ 31 ≤ n ∧ n < 2 ^ 31) ∨
      (2 ^ 31 ≤ n ∧ d ∣ n - (2 ^ 31 - 1)) ∨ (n < -2 ^ 31 ∧ d ∣ n + 2 ^ 31) := by
  by_cases hlow : n < -2 ^ 31
  · have hlimit : max (-2 ^ 31) (min (2 ^ 31 - 1) n) = -2 ^ 31 := by omega
    have hbetween : ¬(-2 ^ 31 ≤ n ∧ n < 2 ^ 31) := by omega
    have hhigh : ¬2 ^ 31 ≤ n := by omega
    rw [hlimit, dvd_sub_comm, sub_neg_eq_add]
    simp only [hbetween, hhigh, hlow, false_and, true_and, false_or]
  by_cases hhigh : 2 ^ 31 ≤ n
  · have hlimit : max (-2 ^ 31) (min (2 ^ 31 - 1) n) = 2 ^ 31 - 1 := by omega
    have hbetween : ¬(-2 ^ 31 ≤ n ∧ n < 2 ^ 31) := by omega
    rw [hlimit, dvd_sub_comm]
    simp only [hbetween, hhigh, hlow, false_and, true_and, false_or, or_false]
  · have hlimit : max (-2 ^ 31) (min (2 ^ 31 - 1) n) = n := by omega
    rw [hlimit, sub_self]
    exact iff_of_true (dvd_zero d) (.inl ⟨not_lt.1 hlow, not_le.1 hhigh⟩)

/-- When folding a conversion from floating point gives the low bits of the whole part. -/
theorem cast_float_eq_ofInt_iff {format : FloatWidth} {x : FloatBits format} {q : ℚ}
    (hq : x.datum.value? = some q) (hrange : -2 ^ 63 ≤ wholePart q ∧ wholePart q < 2 ^ 63)
    (htarget : Ty.int width signed ≠ Ty.u64) :
    (Constant.float format x).cast (.int width signed) = ofInt width signed (wholePart q) ↔
      KeepsLowBits width signed (wholePart q) := by
  have hcast : (Constant.float format x).cast (.int width signed) =
      ofInt width signed (x.datum.truncate (truncationRange width signed).1
        (truncationRange width signed).2) := rfl
  have hword : max (-2 ^ 63) (min (2 ^ 63 - 1) (wholePart q)) = wholePart q := by omega
  rw [hcast, Datum.truncate_eq hq]
  -- the range of 64 bits limits nothing, that of 32 bits does
  cases width with
  | w8 | w16 => rw [ofInt_inj]; exact dvd_limited_sub_iff
  | w32 =>
    cases signed with
    | true => rw [ofInt_inj]; exact dvd_limited_sub_iff
    | false => exact iff_of_true (congrArg _ hword) trivial
  | w64 =>
    cases signed with
    | true => exact iff_of_true (congrArg _ hword) trivial
    | false => exact absurd rfl htarget

end Constant

namespace Machine.Core

variable {c : Core} {k : Constant} {value : Value} {location : Location} {n : Int}

theorem exists_leaves_toInt (hholds : c.Holds k value) (hn : k.toInt? = some n)
    (hhome : location.IsHome) (width : Width) (signed : Bool) :
    ∃ code, cast (.ofLocation (.int width signed) location) value k.ty (.int width signed) =
        .ok code ∧ c.Leaves code location (.ofInt width signed n) := by
  obtain ⟨load, d, hload, hrun, hchanges, hreg⟩ := exists_run_load hholds hn scratch
  have hcode : cast (.ofLocation (.int width signed) location) value k.ty (.int width signed) =
      loadInteger scratch value k.ty >>= fun load => .ok (load ++
        storeInteger (.ofLocation (.int width signed) location) scratch (.int width signed)) := by
    cases k with
    | float => cases hn
    | int | bool => rfl
  have hchanged := hchanges.transit (by decide)
  refine ⟨_, hcode.trans (bind_eq_ok.2 ⟨load, hload, rfl⟩), ?_⟩
  exact leaves_ofInt hrun hchanged (by decide) hreg hhome width signed

theorem exists_leaves_toBool {width : Width} {signed : Bool} {a : BitVec width.bits}
    (hholds : c.Holds (.int width signed a) value) (hhome : location.IsHome) :
    ∃ code, cast (.ofLocation .bool location) value (.int width signed) .bool = .ok code ∧
      c.Leaves code location (.bool (reading signed a ≠ 0)) := by
  obtain ⟨load, d, hload, hrun, hchanges, hreg⟩ :=
    exists_run_load hholds (Constant.toInt?_int ..) scratch
  -- the register is zero only if the integer is, since it holds all of it
  have hzero : reading signed a = 0 ↔ d.reg scratch = 0#64 := by
    have hword := reading_ofInt_reading signed a
    have hnought : reading signed 0#64 = 0 := by cases signed <;> rfl
    rw [← hword, ← hnought, reading_inj, hreg]
  have htest : (Alu.test.flags (d.reg scratch) (d.reg scratch)).bind Condition.notEqual.holds? =
      some (decide (reading signed a ≠ 0)) := by
    change some (!(d.reg scratch &&& d.reg scratch == 0#64)) = _
    rw [BitVec.and_self, decide_not, decide_eq_decide.2 hzero]
    rfl
  obtain ⟨d', hrun', hchanges', hbyte⟩ := exists_run_capture rfl htest
  have hchanged := (hchanges.transit (by decide)).trans (hchanges'.transit (by decide))
  refine ⟨_, bind_eq_ok.2 ⟨load, hload, rfl⟩, ?_⟩
  refine leaves_of_store (k := .bool _) (r := .rax) ?_ hchanged (by decide) hbyte hhome
  rw [run_append_of_ok hrun, hrun']

/-- The source of a conversion from floating point is read at the width of its type. -/
theorem floatSource_operand {format : FloatWidth} {x : FloatBits format}
    (hsuits : value.Suits (.float format))
    (hvalue : c.value (.float format) value = (Constant.float format x).bytes) :
    c.floatSource format (value.operand (.float format)) = some x := by
  cases value with
  | imm word => cases hsuits
  | place place =>
    cases place with
    | reg r => cases hsuits
    | xmm y =>
      have hread : (c.xmm y).setWidth format.bits = x := by
        cases format <;> exact hvalue.trans (BitVec.setWidth_eq x)
      exact congrArg some hread
    | mem size a =>
      obtain rfl : size = .ofTy (.float format) := hsuits
      have hread : (c.memory.load (c.address a) (Size.ofTy (.float format)).bytes).setWidth
          format.bits = x := by
        cases format <;>
          exact (BitVec.setWidth_eq _).trans (hvalue.trans (BitVec.setWidth_eq x))
      exact (if_pos rfl).trans (congrArg some hread)

/-- A conversion from floating point leaves the low bytes of the whole part. -/
theorem exists_leaves_truncated {format : FloatWidth} {x : FloatBits format} {q : ℚ}
    (hsuits : value.Suits (.float format))
    (hvalue : c.value (.float format) value = (Constant.float format x).bytes)
    (hq : x.datum.value? = some q) (hrange : -2 ^ 63 ≤ wholePart q ∧ wholePart q < 2 ^ 63)
    (hhome : location.IsHome) {width : Width} {signed : Bool}
    (htarget : Ty.int width signed ≠ Ty.u64) :
    ∃ code, cast (.ofLocation (.int width signed) location) value (.float format)
        (.int width signed) = .ok code ∧
      c.Leaves code location (.ofInt width signed (wholePart q)) := by
  have hword : converted x.datum = BitVec.ofInt 64 (wholePart q) := by
    rw [converted, hq]
    exact if_pos hrange
  have hrun : c.run [.floatToInt format (full scratch) (value.operand (.float format))] =
      .ok (c.setReg scratch (.ofInt 64 (wholePart q))) := by
    change c.step _ >>= pure = _
    rw [step, floatSource_operand hsuits hvalue, ← hword]
    rfl
  have hchanged : State.Changes [scratch] [] State.nowhere c.toState
      (c.setReg scratch (.ofInt 64 (wholePart q))).toState :=
    .setReg c.toState List.mem_cons_self _
  refine ⟨_, if_neg htarget, leaves_ofInt hrun (hchanged.transit (by decide)) (r := scratch)
    (by decide) ?_ hhome width signed⟩
  exact State.reg_setReg_self _

end Machine.Core

namespace Codegen

/-- The code of a conversion between integers and booleans leaves the folded constant, which is
the integer reduced to the target type. -/
theorem exists_leaves_cast {c : Core} {k : Constant} {n : Int} {value : Value}
    {location : Location} {target : Ty} (hholds : c.Holds k value) (hn : k.toInt? = some n)
    (hhome : location.IsHome) (htarget : target.valueClass = .general)
    (hpair : k.ty = .bool → target ≠ .bool) :
    ∃ code, cast (.ofLocation target location) value k.ty target = .ok code ∧
      c.Leaves code location (k.cast target) ∧ (k.cast target).Reduces n target := by
  have hreduces := Constant.reduces_cast hn htarget
  cases target with
  | float => cases htarget
  | int width signed =>
      obtain ⟨code, hcode, hleaves⟩ := Core.exists_leaves_toInt hholds hn hhome width signed
      rw [← Constant.cast_int hn] at hleaves
      exact ⟨code, hcode, hleaves, hreduces⟩
  | bool =>
      cases k with
      | float => cases hn
      | bool => exact absurd rfl (hpair rfl)
      | int width signed a =>
          obtain ⟨code, hcode, hleaves⟩ := Core.exists_leaves_toBool hholds hhome
          rw [← Constant.cast_bool (Constant.toInt?_int ..)] at hleaves
          exact ⟨code, hcode, hleaves, hreduces⟩

/-- Minus one of 16 bits in the frame, made a 64-bit integer in a register. -/
theorem exists_leaves_cast_widening :
    ∃ code, cast (.ofLocation Ty.u64 (.reg .rbx)) (.place (.ofLocation Ty.s16 (.stack 8)))
        Ty.s16 Ty.u64 = .ok code ∧
      (Core.filled (-1)).Leaves code (.reg .rbx) (.int .w64 false (-1)) := by
  have hholds : (Core.filled (-1)).Holds (.int .w16 true (-1))
      (.place (.ofLocation Ty.s16 (.stack 8))) := ⟨.stack 8, trivial, rfl, rfl⟩
  have hhome : (Location.reg .rbx).IsHome := by decide
  have htarget : Ty.u64.valueClass = .general := rfl
  have hpair : (Constant.int .w16 true (-1)).ty = .bool → Ty.u64 ≠ .bool := by decide
  obtain ⟨code, hcode, hleaves, -⟩ := exists_leaves_cast hholds rfl hhome htarget hpair
  exact ⟨code, hcode, hleaves⟩

/-- The code of a conversion from floating point leaves the whole part reduced to the target
type.  Folding gives the same constant where it keeps the low bits. -/
theorem exists_leaves_wholePart {c : Core} {format : FloatWidth} {x : FloatBits format} {q : ℚ}
    {value : Value} {location : Location} {width : Width} {signed : Bool}
    (hsuits : value.Suits (.float format))
    (hvalue : c.value (.float format) value = (Constant.float format x).bytes)
    (hq : x.datum.value? = some q) (hrange : -2 ^ 63 ≤ wholePart q ∧ wholePart q < 2 ^ 63)
    (hhome : location.IsHome) (htarget : Ty.int width signed ≠ Ty.u64) :
    ∃ code k, cast (.ofLocation (.int width signed) location) value (.float format)
        (.int width signed) = .ok code ∧
      c.Leaves code location k ∧ k.Reduces (wholePart q) (.int width signed) ∧
      ((Constant.float format x).cast (.int width signed) = k ↔
        Constant.KeepsLowBits width signed (wholePart q)) := by
  obtain ⟨code, hcode, hleaves⟩ :=
    Core.exists_leaves_truncated hsuits hvalue hq hrange hhome htarget
  exact ⟨code, .ofInt width signed (wholePart q), hcode, hleaves,
    Constant.reduces_ofInt width signed _, Constant.cast_float_eq_ofInt_iff hq hrange htarget⟩

/-- The greatest integer of 32 bits without a sign, cut to 16 bits with one. -/
theorem exists_leaves_wholePart_beyond :
    ∃ code, cast (.ofLocation Ty.s16 (.stack 8)) (.place (.xmm .xmm0)) Ty.f64 Ty.s16 = .ok code ∧
      (Core.filled 0x41efffffffe00000).Leaves code (.stack 8)
        ((Constant.float .w64 0x41efffffffe00000).cast Ty.s16) := by
  have hq : (FloatBits.datum (w := .w64) 0x41efffffffe00000).value? = some 4294967295 := by
    change some ((1 : ℚ) * ((9007199252643840 : Nat) * 2 ^ (-21 : Int))) = _
    norm_num
  have hwhole : wholePart 4294967295 = 4294967295 := by norm_num [wholePart]
  have hsuits : (Value.place (.xmm .xmm0)).Suits (.float .w64) := rfl
  have hvalue : (Core.filled 0x41efffffffe00000).value (.float .w64) (.place (.xmm .xmm0)) =
      (Constant.float .w64 0x41efffffffe00000).bytes := rfl
  have hhome : (Location.stack 8).IsHome := trivial
  have htarget : Ty.int .w16 true ≠ Ty.u64 := by decide
  obtain ⟨code, k, hcode, hleaves, -, hfolded⟩ := exists_leaves_wholePart hsuits hvalue hq
    (by rw [hwhole]; decide) hhome htarget
  have hkept : Constant.KeepsLowBits .w16 true (wholePart 4294967295) := by
    rw [hwhole]
    exact .inr (.inl (by decide))
  rw [← hfolded.2 hkept] at hleaves
  exact ⟨code, hcode, hleaves⟩

/-- Three thousand millions as a 32-bit integer: folding stops at the limit, and the code leaves
a negative number. -/
theorem cast_ne_leaves_wholePart :
    (Constant.float .w64 0x41e65a0bc0000000).cast Ty.s32 = .int .w32 true 2147483647 ∧
      ∃ code, cast (.ofLocation Ty.s32 (.reg .rbx)) (.place (.xmm .xmm0)) Ty.f64 Ty.s32 =
          .ok code ∧
        (Core.filled 0x41e65a0bc0000000).Leaves code (.reg .rbx)
          (.int .w32 true (-1294967296)) := by
  have hq : (FloatBits.datum (w := .w64) 0x41e65a0bc0000000).value? = some 3000000000 := by
    change some ((1 : ℚ) * ((6291456000000000 : Nat) * 2 ^ (-21 : Int))) = _
    norm_num
  have hwhole : wholePart 3000000000 = 3000000000 := by norm_num [wholePart]
  have hsuits : (Value.place (.xmm .xmm0)).Suits (.float .w64) := rfl
  have hvalue : (Core.filled 0x41e65a0bc0000000).value (.float .w64) (.place (.xmm .xmm0)) =
      (Constant.float .w64 0x41e65a0bc0000000).bytes := rfl
  have hhome : (Location.reg .rbx).IsHome := by decide
  have htarget : Ty.int .w32 true ≠ Ty.u64 := by decide
  obtain ⟨code, hcode, hleaves⟩ := Core.exists_leaves_truncated hsuits hvalue hq
    (by rw [hwhole]; decide) hhome htarget
  rw [hwhole] at hleaves
  exact ⟨rfl, code, hcode, hleaves⟩

end Codegen

end Cinder
