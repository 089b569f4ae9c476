import Cinder.Proofs.Except
import Cinder.Proofs.Float.Truncation
import Cinder.Proofs.Integers
import Cinder.Proofs.Machine.Execution

/-!
# Running code that calculates

What arithmetic, comparisons, divisions and conversions do to registers and flags, beside
the moves of data.  A division can stop the machine.  Flags that an instruction leaves
undefined are not known, and code that asks for them does not run.
-/

namespace Cinder.Machine

inductive Stop where
  /-- A division by zero, or one whose quotient does not fit its register. -/
  | divideError
  /-- An instruction that does not exist or about which nothing is said here. -/
  | unknown
deriving DecidableEq, Repr

/-! ## Flags -/

structure Flags where
  zero : Bool
  carry : Bool
  sign : Bool
  overflow : Bool
deriving DecidableEq, Repr

namespace Alu

variable {n : Nat}

def result (a b : BitVec n) : Alu → BitVec n
  | add => a + b
  | sub | cmp => a - b
  | imul => a * b
  | test => a &&& b
  | xor => a ^^^ b
  | or => a ||| b

/-- The flags behind an operation.  A product leaves some of them undefined. -/
def flags (a b : BitVec n) (op : Alu) : Option Flags :=
  let result := op.result a b
  match op with
  | add => some ⟨result == 0, a.uaddOverflow b, result.msb, a.saddOverflow b⟩
  | sub | cmp => some ⟨result == 0, a.usubOverflow b, result.msb, a.ssubOverflow b⟩
  | imul => none
  | test | xor | or => some ⟨result == 0, false, result.msb, false⟩

def isWritten : Alu → Bool
  | cmp | test => false
  | _ => true

end Alu

/-- Whether a condition holds.  Nothing is said about parity. -/
def Condition.holds? (flags : Flags) : Condition → Option Bool
  | greater => some (!flags.zero && flags.sign == flags.overflow)
  | above => some (!flags.carry && !flags.zero)
  | less => some (flags.sign != flags.overflow)
  | below => some flags.carry
  | notEqual => some !flags.zero
  | parity => none

/-- The zero flag behind a difference tells whether the operands are equal. -/
theorem sub_beq_zero (a b : BitVec 64) : (a - b == 0) = decide (a = b) := by
  have hiff : a - b = 0#64 ↔ a = b := by
    rw [BitVec.sub_eq_iff_eq_add, BitVec.zero_add]
  exact decide_eq_decide.2 hiff

/-- The sign of a difference is the order of the operands unless it has overflowed. -/
theorem msb_sub_bne_ssubOverflow (a b : BitVec 64) :
    ((a - b).msb != a.ssubOverflow b) = decide (a.toInt < b.toInt) := by
  have ha := a.toInt_lt
  have ha' := a.le_toInt
  have hb := b.toInt_lt
  have hb' := b.le_toInt
  rw [BitVec.msb_eq_toInt, BitVec.toInt_sub, BitVec.ssubOverflow, Int.bmod, Bool.eq_iff_iff,
    bne_iff_ne, Ne, Bool.eq_iff_iff, Bool.or_eq_true, decide_eq_true_iff, decide_eq_true_iff,
    decide_eq_true_iff, decide_eq_true_iff]
  omega

/-- A word with its sign spread over the word above it stands for the same integer. -/
theorem toInt_spread (x : BitVec 64) :
    ((if x.msb then BitVec.allOnes 64 else 0#64) ++ x).toInt = x.toInt := by
  rw [BitVec.toInt_append, if_neg (by decide), x.toInt_eq_msb_cond]
  cases x.msb with
  | true =>
    rw [if_pos rfl, if_pos rfl, BitVec.toInt_allOnes, if_pos (by decide)]
    omega
  | false =>
    rw [if_neg Bool.false_ne_true, if_neg Bool.false_ne_true, BitVec.toInt_zero, mul_zero,
      zero_add]

/-! ## Instructions -/

/-- The word that a floating point value is converted to: its whole part, or the least
integer if that does not fit. -/
def converted (d : Datum) : BitVec 64 :=
  match d.value? with
  | some q =>
    if -2 ^ 63 ≤ wholePart q ∧ wholePart q < 2 ^ 63 then BitVec.ofInt 64 (wholePart q)
    else BitVec.intMin 64
  | none => BitVec.intMin 64

/-- Instructions that only move data and leave the flags alone. -/
def Instr.isMove : Instr → Bool
  | .mov .. | .movsx .. | .movsxd .. | .movzx .. => true
  | _ => false

structure Core extends State where
  flags : Option Flags

namespace Core

/-- A processor whose registers hold one word and whose memory holds its low byte. -/
def filled (word : BitVec 64) : Core where
  reg _ := word
  xmm _ := word
  memory _ := word.setWidth 8
  entry _ := 0
  flags := none

def setReg (c : Core) (r : Reg) (value : BitVec 64) : Core :=
  { c with toState := c.toState.setReg r value }

def calculate (c : Core) (op : Alu) (size : Size) (r r' : Reg) : Core :=
  let a := (c.reg r).setWidth size.bits
  let b := (c.reg r').setWidth size.bits
  let d := if op.isWritten then c.setReg r (size.written (c.reg r) (op.result a b)) else c
  { d with flags := op.flags a b }

/-- Divides the double word in `rdx` and `rax`; the quotient goes to `rax` and the remainder
to `rdx`. -/
def divide (c : Core) (signed : Bool) (divisor : BitVec 64) : Except Stop Core :=
  let dividend := reading signed (c.reg .rdx ++ c.reg .rax)
  let divisor := reading signed divisor
  let quotient := dividend.tdiv divisor
  if divisor = 0 ∨ reading signed (BitVec.ofInt 64 quotient) ≠ quotient then .error .divideError
  else
    let d := (c.setReg .rax (.ofInt 64 quotient)).setReg .rdx (.ofInt 64 (dividend.tmod divisor))
    .ok { d with flags := none }

def floatSource (c : Core) (width : FloatWidth) : Operand → Option (FloatBits width)
  | .xmm x => some ((c.xmm x).setWidth _)
  | .mem size a =>
    if size = .ofTy (.float width) then
      some ((c.memory.load (c.address a) size.bytes).setWidth _)
    else none
  | _ => none

def step (c : Core) : Instr → Except Stop Core
  | .alu op (.reg r size) (.reg r' size') =>
    if size = size' then .ok (c.calculate op size r r') else .error .unknown
  | .set condition (.reg r .byte) =>
    match c.flags.bind condition.holds? with
    | some holds => .ok (c.setReg r (Size.byte.written (c.reg r) (BitVec.ofNat _ holds.toNat)))
    | none => .error .unknown
  | .cqo => .ok (c.setReg .rdx (if (c.reg .rax).msb then BitVec.allOnes 64 else 0))
  | .idiv (.reg r .qword) => c.divide true (c.reg r)
  | .div (.reg r .qword) => c.divide false (c.reg r)
  | .floatToInt width (.reg r .qword) src =>
    match c.floatSource width src with
    | some bits => .ok (c.setReg r (converted bits.datum))
    | none => .error .unknown
  | i =>
    match c.exec i with
    | some t => if i.isMove then .ok { c with toState := t } else .error .unknown
    | none => .error .unknown

def run (c : Core) (code : List Instr) : Except Stop Core :=
  code.foldlM step c

variable {c d : Core} {t : State} {code : List Instr} {r r' : Reg} {xmms : List Xmm}
  {area : BitVec 64 → Prop}

theorem run_append (c : Core) (code code' : List Instr) :
    c.run (code ++ code') = c.run code >>= fun d => d.run code' :=
  List.foldlM_append

theorem run_append_of_ok (h : c.run code = .ok d) (code' : List Instr) :
    c.run (code ++ code') = d.run code' := by
  rw [run_append, h]
  rfl

theorem step_of_isMove {i : Instr} (hmove : i.isMove = true) (h : c.exec i = some t) :
    c.step i = .ok { c with toState := t } := by
  have hstep : c.step i = match c.exec i with
      | some t => if i.isMove then .ok { c with toState := t } else .error .unknown
      | none => .error .unknown := by
    cases i with
    | mov | movsx | movsxd | movzx => rfl
    | _ => cases hmove
  rw [hstep, h]
  exact if_pos hmove

theorem run_of_isMove (hmove : ∀ i ∈ code, i.isMove = true) (h : c.toState.run code = some t) :
    c.run code = .ok { c with toState := t } := by
  induction code generalizing c with
  | nil =>
    cases h
    rfl
  | cons i code ih =>
    rw [State.run_cons] at h
    obtain ⟨u, hexec, h⟩ := Option.bind_eq_some_iff.1 h
    have hstep := step_of_isMove (hmove i List.mem_cons_self) hexec
    have hrest := @ih { c with toState := u } (fun i hi => hmove i (List.mem_cons_of_mem _ hi)) h
    calc c.run (i :: code)
        = c.step i >>= fun d => d.run code := rfl
      _ = Core.run { c with toState := u } code := by rw [hstep]; rfl
      _ = .ok { c with toState := t } := hrest

/-- On whole registers nothing is cut off. -/
theorem step_alu (c : Core) (op : Alu) (r r' : Reg) :
    c.step (.alu op (full r) (full r')) =
      .ok { (if op.isWritten then c.setReg r (op.result (c.reg r) (c.reg r')) else c) with
        flags := op.flags (c.reg r) (c.reg r') } := by
  have hread : ∀ r, (c.reg r).setWidth Size.qword.bits = c.reg r := fun r => BitVec.setWidth_eq _
  have hwrite : ∀ value : BitVec 64, Size.qword.written (c.reg r) value = value :=
    fun value => BitVec.setWidth_eq value
  change Except.ok (c.calculate op .qword r r') = _
  rw [calculate, hread, hread]
  exact congrArg (fun value => Except.ok { (if op.isWritten then c.setReg r value else c) with
    flags := op.flags (c.reg r) (c.reg r') }) (hwrite _)

theorem exists_run_alu {op : Alu} (hop : op.isWritten = true) (c : Core) (r r' : Reg) :
    ∃ d : Core, c.run [.alu op (full r) (full r')] = .ok d ∧
      State.Changes [r] xmms area c.toState d.toState ∧
      d.reg r = op.result (c.reg r) (c.reg r') := by
  have hstep := c.step_alu op r r'
  rw [if_pos hop] at hstep
  refine ⟨{ c.setReg r (op.result (c.reg r) (c.reg r')) with
    flags := op.flags (c.reg r) (c.reg r') }, ?_, .setReg c.toState List.mem_cons_self _, ?_⟩
  · change (c.step _ >>= fun d => d.run []) = _
    rw [hstep]
    rfl
  · exact State.reg_setReg_self _

/-- A comparison or a test whose outcome is captured in the low byte of `rax`. -/
theorem exists_run_capture {op : Alu} (hop : op.isWritten = false) {condition : Condition}
    {holds : Bool} (h : (op.flags (c.reg r) (c.reg r')).bind condition.holds? = some holds) :
    ∃ d : Core, c.run [.alu op (full r) (full r'), .set condition (.reg .rax .byte)] = .ok d ∧
      State.Changes [.rax] xmms area c.toState d.toState ∧
      (d.reg .rax).setWidth Size.byte.bits = BitVec.ofNat _ holds.toNat := by
  have hstep := c.step_alu op r r'
  rw [if_neg (Bool.not_eq_true _ ▸ hop)] at hstep
  let byte := Size.byte.written (c.reg .rax) (BitVec.ofNat _ holds.toNat)
  refine ⟨{ c.setReg .rax byte with flags := op.flags (c.reg r) (c.reg r') }, ?_,
    .setReg c.toState List.mem_cons_self _, ?_⟩
  · change (c.step _ >>= fun d =>
      d.step (.set condition (.reg .rax .byte)) >>= fun d => d.run []) = _
    rw [hstep, bind_ok, step]
    dsimp only
    rw [h]
    rfl
  · refine (congrArg (BitVec.setWidth _) (State.reg_setReg_self _)).trans ?_
    exact State.setWidth_written .byte _ _

/-- What stands in front of a division makes the number in `rax` a double word. -/
theorem exists_step_spread (c : Core) (signed : Bool) :
    ∃ d : Core, c.step (if signed then .cqo else .alu .xor (.reg .rdx .dword) (.reg .rdx .dword)) =
        .ok d ∧
      State.Changes [.rdx] xmms area c.toState d.toState ∧
      reading signed (d.reg .rdx ++ d.reg .rax) = reading signed (c.reg .rax) := by
  cases signed with
  | true =>
    refine ⟨_, rfl, .setReg c.toState List.mem_cons_self _, ?_⟩
    exact toInt_spread (c.reg .rax)
  | false =>
    refine ⟨c.calculate .xor .dword .rdx .rdx, rfl, .setReg c.toState List.mem_cons_self _, ?_⟩
    have hzero : (c.calculate .xor .dword .rdx .rdx).reg .rdx = 0#64 := by
      refine (State.reg_setReg_self _).trans ?_
      rw [Alu.result, BitVec.xor_self]
      rfl
    refine congrArg Nat.cast ?_
    rw [hzero, BitVec.toNat_append, BitVec.toNat_zero, Nat.zero_shiftLeft, Nat.zero_or]
    rfl

theorem divide_eq_error {signed : Bool} {divisor : BitVec 64} {a b : Int}
    (ha : reading signed (c.reg .rdx ++ c.reg .rax) = a) (hb : reading signed divisor = b)
    (h : b = 0 ∨ reading signed (BitVec.ofInt 64 (a.tdiv b)) ≠ a.tdiv b) :
    c.divide signed divisor = .error .divideError := by
  rw [divide, ha, hb]
  exact if_pos h

theorem exists_divide {signed : Bool} {divisor : BitVec 64} {a b : Int}
    (ha : reading signed (c.reg .rdx ++ c.reg .rax) = a) (hb : reading signed divisor = b)
    (hzero : b ≠ 0) (hfits : reading signed (BitVec.ofInt 64 (a.tdiv b)) = a.tdiv b) :
    ∃ d : Core, c.divide signed divisor = .ok d ∧
      State.Changes [.rax, .rdx] xmms area c.toState d.toState ∧
      d.reg .rax = BitVec.ofInt 64 (a.tdiv b) := by
  have hfaultless : ¬(b = 0 ∨ reading signed (BitVec.ofInt 64 (a.tdiv b)) ≠ a.tdiv b) :=
    not_or.2 ⟨hzero, not_not.2 hfits⟩
  rw [divide, ha, hb]
  refine ⟨_, if_neg hfaultless, ?_, ?_⟩
  · exact (State.Changes.setReg c.toState (by simp) _).trans (.setReg _ (by simp) _)
  · rfl

end Core

end Cinder.Machine
