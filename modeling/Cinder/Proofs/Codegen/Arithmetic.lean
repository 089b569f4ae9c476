import Cinder.Proofs.Codegen.Constants

/-!
# Integer arithmetic at run time

The code of an operation on integers gives what folding the operation gives, for operands and
results wherever they are kept: it leaves the folded constant, and faults where there is none.
The one exception is the least 64-bit integer divided by minus one.  Folding wraps around
there, and the machine faults because the quotient does not fit its register.
-/

namespace Cinder

open Codegen Machine

def Operator.resultTy (op : Operator) (ty : Ty) : Ty :=
  if op.isComparison then .bool else ty

/-- Operands of a division whose quotient no register is wide enough for: the least integer of
64 bits and minus one. -/
def Operator.Overflows (op : Operator) (signed : Bool) (m n : Int) : Prop :=
  op = .div ∧ signed = true ∧ m = -2 ^ 63 ∧ n = -1

/-- A quotient is no larger than the dividend, so it fits unless it is the opposite of the
least integer. -/
theorem admits_tdiv_iff {signed : Bool} {m n : Int} (hm : (Ty.int .w64 signed).Admits m)
    (hn : (Ty.int .w64 signed).Admits n) (hzero : n ≠ 0) :
    (Ty.int .w64 signed).Admits (m.tdiv n) ↔ ¬(signed = true ∧ m = -2 ^ 63 ∧ n = -1) := by
  have habs : (m.tdiv n).natAbs = m.natAbs / n.natAbs := Int.natAbs_tdiv m n
  cases signed with
  | false =>
    obtain ⟨hlow, hhigh⟩ := hm
    have hle : m.natAbs / n.natAbs ≤ m.natAbs := Nat.div_le_self _ _
    have hnonneg : 0 ≤ m.tdiv n := Int.tdiv_nonneg hlow hn.1
    refine iff_of_true ⟨hnonneg, by omega⟩ ?_
    rintro ⟨⟨⟩, -⟩
  | true =>
    obtain ⟨hlow, hhigh⟩ : -2 ^ 63 ≤ m ∧ m < 2 ^ 63 := hm
    have hrange : -2 ^ 63 ≤ m.tdiv n ∧ m.tdiv n < 2 ^ 63 ↔ ¬(m = -2 ^ 63 ∧ n = -1) := by
      by_cases hneg : n = -1
      · rw [hneg, Int.tdiv_neg, Int.tdiv_one]
        omega
      by_cases hone : n = 1
      · rw [hone, Int.tdiv_one]
        omega
      -- any other divisor halves the dividend at least
      · have hhalf : m.natAbs / n.natAbs ≤ m.natAbs / 2 :=
          Nat.div_le_div_left (by omega) (by decide)
        omega
    rw [eq_self, true_and]
    exact hrange

/-! ## Comparisons -/

/-- The condition for a comparison holds behind a comparison of words if it holds of their
integers. -/
theorem Codegen.holds?_integerCondition (greater signed : Bool) (a b : BitVec 64) :
    (Alu.cmp.flags a b).bind (integerCondition greater signed).holds? =
      some (if greater then decide (reading signed b < reading signed a)
        else decide (reading signed a < reading signed b)) := by
  -- greater is neither less nor equal
  have hgreater : (!decide (reading signed a < reading signed b) && !decide (a = b)) =
      decide (reading signed b < reading signed a) := by
    have heq : reading signed a = reading signed b ↔ a = b := reading_inj signed
    rw [← decide_not, ← decide_not, ← Bool.decide_and]
    exact decide_eq_decide.2 (by rw [← heq]; omega)
  cases greater with
  | true =>
    rw [if_pos rfl, ← hgreater, ← sub_beq_zero]
    cases signed with
    | true =>
      change some (!(a - b == 0) && (a - b).msb == a.ssubOverflow b) =
        some (!decide (a.toInt < b.toInt) && !(a - b == 0))
      rw [← msb_sub_bne_ssubOverflow, bne, Bool.not_not, Bool.and_comm]
    | false =>
      have hcarry : a.usubOverflow b = decide ((a.toNat : Int) < b.toNat) :=
        decide_eq_decide.2 Int.ofNat_lt.symm
      exact congrArg (fun carry => some (!carry && !(a - b == 0))) hcarry
  | false =>
    cases signed with
    | true => exact congrArg some (msb_sub_bne_ssubOverflow a b)
    | false => exact congrArg some (decide_eq_decide.2 Int.ofNat_lt.symm)

namespace Machine.Core

variable {c d : Core} {k k' : Constant} {lhs rhs : Value} {location : Location} {m n : Int}

theorem exists_run_loads (hlhs : c.Holds k lhs) (hm : k.toInt? = some m) (hrhs : c.Holds k' rhs)
    (hn : k'.toInt? = some n) (r r' : Reg) (hr : r ∈ transitRegs) (hr' : r' ∈ transitRegs)
    (hne : r ≠ r') :
    ∃ (load load' : List Instr) (d : Core), loadInteger r lhs k.ty = .ok load ∧
      loadInteger r' rhs k'.ty = .ok load' ∧ c.run (load ++ load') = .ok d ∧
      State.Changes transitRegs [] State.nowhere c.toState d.toState ∧
      d.reg r = BitVec.ofInt 64 m ∧ d.reg r' = BitVec.ofInt 64 n := by
  obtain ⟨load, c₁, hload, hrun, hchanges, hreg⟩ := exists_run_load hlhs hm r
  have hchanges := hchanges.transit (List.forall_mem_singleton.2 hr)
  obtain ⟨load', d, hload', hrun', hchanges', hreg'⟩ :=
    exists_run_load (hrhs.of_changes hchanges) hn r'
  refine ⟨load, load', d, hload, hload', ?_, ?_, ?_, hreg'⟩
  · rw [run_append_of_ok hrun, hrun']
  · exact hchanges.trans (hchanges'.transit (List.forall_mem_singleton.2 hr'))
  · rw [hchanges'.reg r (by simpa using hne), hreg]

/-- Running code gives what folding gives: the folded constant, or a fault where there is
none. -/
def Agrees (c : Core) (code : List Instr) (location : Location) : Option Constant → Prop
  | some k => c.Leaves code location k
  | none => c.run code = .error .divideError

theorem not_agrees_of_fault {code : List Instr} (h : c.run code = .error .divideError) :
    ¬c.Agrees code location (some k) := by
  rintro ⟨d, hrun, -⟩
  cases h.symm.trans hrun

theorem run_divide {signed : Bool}
    (hspread : c.step (if signed then .cqo else .alu .xor (.reg .rdx .dword) (.reg .rdx .dword)) =
      .ok d) : c.run (Codegen.divide signed) = d.divide signed (d.reg scratch) := by
  have hrun : ∀ i j : Instr, c.step i = .ok d → c.run [i, j] = d.step j := by
    intro i j hi
    calc c.run [i, j]
        = c.step i >>= fun d => d.step j >>= pure := rfl
      _ = d.step j := by rw [hi, bind_ok, bind_pure]
  cases signed with
  | true => exact hrun _ _ hspread
  | false => exact hrun _ _ hspread

variable {width : Width} {signed : Bool} {a b : BitVec width.bits}
  (hlhs : c.Holds (.int width signed a) lhs) (hrhs : c.Holds (.int width signed b) rhs)
  (hhome : location.IsHome)

include hlhs hrhs hhome

/-- Sums, differences and products are calculated on whole registers and cut afterwards. -/
theorem exists_leaves_arithmetic (alu : Alu) (halu : alu.isWritten = true) {n : Int}
    (hresult : alu.result (BitVec.ofInt 64 (reading signed a))
      (BitVec.ofInt 64 (reading signed b)) = BitVec.ofInt 64 n) :
    ∃ code, (do
        let load ← loadInteger scratch lhs (.int width signed)
        let load' ← loadInteger .rax rhs (.int width signed)
        return load ++ load' ++ [Instr.alu alu (full scratch) (full .rax)] ++
          storeInteger (.ofLocation (.int width signed) location) scratch (.int width signed)) =
        .ok code ∧ c.Leaves code location (.ofInt width signed n) := by
  obtain ⟨load, load', c₁, hload, hload', hrun, hchanges, hleft, hright⟩ :=
    exists_run_loads hlhs (Constant.toInt?_int ..) hrhs (Constant.toInt?_int ..) scratch .rax
      (by decide) (by decide) (by decide)
  obtain ⟨d, hrun', hchanges', hreg⟩ := exists_run_alu halu c₁ scratch .rax
  refine ⟨_, bind_eq_ok.2 ⟨load, hload, bind_eq_ok.2 ⟨load', hload', rfl⟩⟩, ?_⟩
  have hchanged := hchanges.trans (hchanges'.transit (by decide))
  rw [hleft, hright, hresult] at hreg
  refine leaves_ofInt ?_ hchanged (by decide) hreg hhome width signed
  rw [run_append_of_ok hrun, hrun']

theorem exists_leaves_comparison (greater : Bool) :
    ∃ code, (do
        let load ← loadInteger scratch lhs (.int width signed)
        let load' ← loadInteger .rax rhs (.int width signed)
        return load ++ load' ++ [Instr.alu .cmp (full scratch) (full .rax),
            .set (integerCondition greater signed) al] ++
          storeInteger (.ofLocation .bool location) .rax .bool) = .ok code ∧
      c.Leaves code location
        (.bool (if greater then decide (reading signed b < reading signed a)
          else decide (reading signed a < reading signed b))) := by
  obtain ⟨load, load', c₁, hload, hload', hrun, hchanges, hleft, hright⟩ :=
    exists_run_loads hlhs (Constant.toInt?_int ..) hrhs (Constant.toInt?_int ..) scratch .rax
      (by decide) (by decide) (by decide)
  have hcondition := holds?_integerCondition greater signed (c₁.reg scratch) (c₁.reg .rax)
  rw [hleft, hright, reading_ofInt_reading, reading_ofInt_reading, ← hleft, ← hright] at hcondition
  obtain ⟨d, hrun', hchanges', hbyte⟩ := exists_run_capture rfl hcondition
  refine ⟨_, bind_eq_ok.2 ⟨load, hload, bind_eq_ok.2 ⟨load', hload', rfl⟩⟩, ?_⟩
  have hchanged := hchanges.trans (hchanges'.transit (by decide))
  refine leaves_of_store (k := .bool _) (r := .rax) ?_ hchanged (by decide) hbyte hhome
  rw [run_append_of_ok hrun, hrun']

/-- A division leaves the quotient, and faults if the divisor is zero or the quotient does
not fit. -/
theorem exists_leaves_divide :
    ∃ code, (do
        let load ← loadInteger .rax lhs (.int width signed)
        let load' ← loadInteger scratch rhs (.int width signed)
        return load ++ load' ++ Codegen.divide signed ++
          storeInteger (.ofLocation (.int width signed) location) .rax (.int width signed)) =
        .ok code ∧
      let quotient := (reading signed a).tdiv (reading signed b)
      (reading signed b ≠ 0 → (Ty.int .w64 signed).Admits quotient →
        c.Leaves code location (.ofInt width signed quotient)) ∧
      (reading signed b = 0 ∨ ¬(Ty.int .w64 signed).Admits quotient →
        c.run code = .error .divideError) := by
  obtain ⟨load, load', c₁, hload, hload', hrun, hchanges, hleft, hright⟩ :=
    exists_run_loads hlhs (Constant.toInt?_int ..) hrhs (Constant.toInt?_int ..) .rax scratch
      (by decide) (by decide) (by decide)
  -- the divisor waits in the scratch register while the dividend is spread over two
  obtain ⟨c₂, hspread, hchanges', hdividend⟩ := exists_step_spread c₁ signed
  have hdivide := run_divide hspread
  have hchanged := hchanges.trans (hchanges'.transit (by decide))
  rw [hleft, reading_ofInt_reading] at hdividend
  have hdivisor : reading signed (c₂.reg scratch) = reading signed b := by
    rw [hchanges'.reg scratch (by decide), hright, reading_ofInt_reading]
  refine ⟨_, bind_eq_ok.2 ⟨load, hload, bind_eq_ok.2 ⟨load', hload', rfl⟩⟩, ?_, ?_⟩
  · intro hzero hfits
    obtain ⟨d, hquotient, hchanges'', hreg⟩ := exists_divide hdividend hdivisor hzero
      ((reading_ofInt_iff .w64).2 hfits)
    have hchanged := hchanged.trans (hchanges''.transit (by decide))
    refine leaves_ofInt ?_ hchanged (by decide) hreg hhome width signed
    rw [run_append_of_ok hrun, hdivide, hquotient]
  · intro hfault
    have hfault := divide_eq_error hdividend hdivisor
      (hfault.imp_right (mt (reading_ofInt_iff .w64).1))
    rw [run_append, run_append_of_ok hrun, hdivide, hfault]
    rfl

/-- Only a division can fault. -/
theorem exists_agrees_of_ne_div {op : Operator} (hop : op ≠ .div) :
    ∃ code, integerBinary (.ofLocation (op.resultTy (.int width signed)) location) lhs op rhs
        (.int width signed) (op.resultTy (.int width signed)) = .ok code ∧
      c.Agrees code location
        (Constant.exactBinary width signed op (reading signed a) (reading signed b)) := by
  cases op with
  | div => exact absurd rfl hop
  | add =>
    exact exists_leaves_arithmetic hlhs hrhs hhome .add rfl (BitVec.ofInt_add ..).symm
  | sub => exact exists_leaves_arithmetic hlhs hrhs hhome .sub rfl (sub_ofInt ..)
  | mul =>
    exact exists_leaves_arithmetic hlhs hrhs hhome .imul rfl (BitVec.ofInt_mul ..).symm
  | greater => exact exists_leaves_comparison hlhs hrhs hhome true
  | less => exact exists_leaves_comparison hlhs hrhs hhome false

/-- A division agrees with folding it unless it overflows, and faults then. -/
theorem exists_agrees_div_iff :
    ∃ code, integerBinary (.ofLocation (.int width signed) location) lhs .div rhs
        (.int width signed) (.int width signed) = .ok code ∧
      (c.Agrees code location
          (Constant.exactBinary width signed .div (reading signed a) (reading signed b)) ↔
        ¬Operator.div.Overflows signed (reading signed a) (reading signed b)) ∧
      (Operator.div.Overflows signed (reading signed a) (reading signed b) →
        c.run code = .error .divideError) := by
  obtain ⟨code, hcode, hleaves, hfault⟩ := exists_leaves_divide hlhs hrhs hhome
  refine ⟨code, hcode, ?_⟩
  rw [Constant.exactBinary]
  by_cases hzero : reading signed b = 0
  · have hrun := hfault (.inl hzero)
    rw [if_pos hzero]
    refine ⟨iff_of_true hrun ?_, fun _ => hrun⟩
    rintro ⟨-, -, -, hb⟩
    omega
  · have hbounds := admits_tdiv_iff (admits_reading width signed a).word
      (admits_reading width signed b).word hzero
    rw [if_neg hzero]
    by_cases hover : Operator.div.Overflows signed (reading signed a) (reading signed b)
    · have hrun := hfault (.inr fun hfits => hbounds.1 hfits hover.2)
      exact ⟨iff_of_false (not_agrees_of_fault hrun) (not_not.2 hover), fun _ => hrun⟩
    · have hleft := hleaves hzero (hbounds.2 fun h => hover ⟨rfl, h⟩)
      exact ⟨iff_of_true hleft hover, fun h => absurd h hover⟩

end Machine.Core

namespace Codegen

/-- The code of an operation on integers agrees with folding it, but for the one division that
overflows.  There it faults. -/
theorem agrees_integerBinary_iff {c : Core} {width : Width} {signed : Bool}
    {a b : BitVec width.bits} {lhs rhs : Value} {location : Location}
    (hlhs : c.Holds (.int width signed a) lhs) (hrhs : c.Holds (.int width signed b) rhs)
    (hhome : location.IsHome) (op : Operator) :
    ∃ code, integerBinary (.ofLocation (op.resultTy (.int width signed)) location) lhs op rhs
        (.int width signed) (op.resultTy (.int width signed)) = .ok code ∧
      (c.Agrees code location (Constant.binary op (.int width signed a) (.int width signed b)) ↔
        ¬op.Overflows signed (reading signed a) (reading signed b)) ∧
      (op.Overflows signed (reading signed a) (reading signed b) →
        c.run code = .error .divideError) := by
  rw [Constant.binary_int]
  by_cases hop : op = .div
  · subst hop
    exact Core.exists_agrees_div_iff hlhs hrhs hhome
  · obtain ⟨code, hcode, hagrees⟩ := Core.exists_agrees_of_ne_div hlhs hrhs hhome hop
    exact ⟨code, hcode, iff_of_true hagrees fun h => hop h.1, fun h => absurd h.1 hop⟩

/-- The least integer of 8 bits, divided by a minus one in the frame, wraps around both ways. -/
theorem agrees_integerBinary_least :
    ∃ code, integerBinary (.ofLocation Ty.s8 (.reg .rbx)) (.imm (-128)) .div
        (.place (.ofLocation Ty.s8 (.stack 8))) Ty.s8 Ty.s8 = .ok code ∧
      (Core.filled 255).Agrees code (.reg .rbx) (some (.int .w8 true (-128))) := by
  have hlhs : (Core.filled 255).Holds (.int .w8 true (-128)) (.imm (-128)) := rfl
  have hrhs : (Core.filled 255).Holds (.int .w8 true (-1))
      (.place (.ofLocation Ty.s8 (.stack 8))) := ⟨.stack 8, trivial, rfl, rfl⟩
  have hhome : (Location.reg .rbx).IsHome := by decide
  obtain ⟨code, hcode, hagrees, -⟩ := agrees_integerBinary_iff hlhs hrhs hhome .div
  refine ⟨code, hcode, hagrees.2 ?_⟩
  rintro ⟨-, -, hleast, -⟩
  exact absurd hleast (by decide)

/-- Folding divides the least integer of 64 bits by minus one; the code for it faults. -/
theorem faults_integerBinary_least :
    Constant.binary .div (.int .w64 true (.intMin 64)) (.int .w64 true (-1)) =
        some (.int .w64 true (.intMin 64)) ∧
      ∃ code, integerBinary (.ofLocation Ty.s64 (.reg .rbx)) (.imm (.intMin 64)) .div
          (.imm (-1)) Ty.s64 Ty.s64 = .ok code ∧
        (Core.filled 0).run code = .error .divideError := by
  refine ⟨rfl, ?_⟩
  have hlhs : (Core.filled 0).Holds (.int .w64 true (.intMin 64)) (.imm (.intMin 64)) := rfl
  have hrhs : (Core.filled 0).Holds (.int .w64 true (-1)) (.imm (-1)) := rfl
  have hhome : (Location.reg .rbx).IsHome := by decide
  obtain ⟨code, hcode, -, hfault⟩ := Core.exists_agrees_div_iff hlhs hrhs hhome
  exact ⟨code, hcode, hfault ⟨rfl, rfl, rfl, rfl⟩⟩

end Codegen

end Cinder
