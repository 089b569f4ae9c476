import Cinder.Machine.Assembly
import Mathlib.Algebra.Group.Nat.Defs

/-!
# Running straight code

What the instructions that move data and the stack pointer do to registers and memory.
An instruction with two memory operands or with operands of different sizes does not
exist, so that code that holds one does not run.  Neither does code that calculates or
goes elsewhere: nothing is said about it here.
-/

namespace Cinder.Machine

abbrev Size.bits (size : Size) : Nat :=
  8 * size.bytes

/-! ## Memory -/

abbrev Memory := BitVec 64 → BitVec 8

namespace Memory

def load (memory : Memory) (address : BitVec 64) : (bytes : Nat) → BitVec (8 * bytes)
  | 0 => 0#0
  | bytes + 1 => memory.load (address + 1) bytes ++ memory address

def store (memory : Memory) (address : BitVec 64) {bytes : Nat} (value : BitVec (8 * bytes)) :
    Memory :=
  fun a => if (a - address).toNat < bytes then value.extractLsb' (8 * (a - address).toNat) 8
    else memory a

variable {memory memory' : Memory} {address : BitVec 64} {bytes : Nat}

theorem getLsbD_load (memory : Memory) (address : BitVec 64) (bytes i : Nat) :
    (memory.load address bytes).getLsbD i =
      (decide (i < 8 * bytes) && (memory (address + BitVec.ofNat 64 (i / 8))).getLsbD (i % 8)) := by
  induction bytes generalizing address i with
  | zero => simp
  | succ bytes ih =>
    rw [load, BitVec.getLsbD_append]
    by_cases hi : i < 8
    · have hdiv : i / 8 = 0 := by omega
      have hmod : i % 8 = i := by omega
      have hlt : i < 8 * (bytes + 1) := by omega
      rw [hdiv, hmod]
      simp [hi, hlt]
    · have hdiv : i / 8 = (i - 8) / 8 + 1 := by omega
      have hmod : (i - 8) % 8 = i % 8 := by omega
      have hlt : decide (i - 8 < 8 * bytes) = decide (i < 8 * (bytes + 1)) :=
        decide_eq_decide.2 (by omega)
      have hnext : address + 1 + BitVec.ofNat 64 ((i - 8) / 8) =
          address + BitVec.ofNat 64 (i / 8) := by
        rw [hdiv, Nat.add_comm, BitVec.ofNat_add, ← BitVec.add_assoc]
        rfl
      rw [ih, hnext, hmod, hlt]
      simp [hi]

theorem load_congr (h : ∀ i < bytes, memory' (address + BitVec.ofNat 64 i) =
    memory (address + BitVec.ofNat 64 i)) :
    memory'.load address bytes = memory.load address bytes := by
  ext i hi
  have hbyte : i / 8 < bytes := by omega
  rw [← BitVec.getLsbD_eq_getElem, ← BitVec.getLsbD_eq_getElem, getLsbD_load, getLsbD_load,
    h _ hbyte]

theorem load_store {value : BitVec (8 * bytes)} {n : Nat} (hn : n ≤ bytes)
    (hbytes : bytes ≤ 2 ^ 64) :
    (memory.store address value).load address n = value.setWidth (8 * n) := by
  ext i hi
  have hbyte : i / 8 < bytes := by omega
  have hoffset : (address + BitVec.ofNat 64 (i / 8) - address).toNat = i / 8 := by
    rw [BitVec.add_comm, BitVec.add_sub_cancel, BitVec.toNat_ofNat]
    exact Nat.mod_eq_of_lt (by omega)
  have hbit : 8 * (i / 8) + i % 8 = i := Nat.div_add_mod i 8
  rw [← BitVec.getLsbD_eq_getElem, getLsbD_load, store, hoffset, if_pos hbyte]
  simp [hbit, hi, Nat.mod_lt]

end Memory

/-! ## States -/

def Operand.size? : Operand → Option Size
  | .reg _ size => some size
  | .mem size _ => some size
  | _ => none

def replaceLow (old : BitVec 64) {n : Nat} (value : BitVec n) : BitVec 64 :=
  old >>> n <<< n ||| value.setWidth 64

/-- What a register holds after its low bytes have been written.  Writing the lower half
clears the upper half, writing less keeps the rest. -/
def Size.written (size : Size) (old : BitVec 64) (value : BitVec size.bits) : BitVec 64 :=
  if 4 ≤ size.bytes then value.setWidth 64 else replaceLow old value

/-- What instructions work on.  Of a vector register only the low half is kept, which
holds the floating point values. -/
structure State where
  reg : Reg → BitVec 64
  xmm : Xmm → BitVec 64
  memory : Memory
  entry : Nat → BitVec 64

namespace State

def address (s : State) : Address → BitVec 64
  | .frame offset => s.reg .rbp + BitVec.ofInt 64 offset
  | .data entry => s.entry entry
  | .top => s.reg .rsp

def setReg (s : State) (r : Reg) (value : BitVec 64) : State :=
  { s with reg := fun r' => if r' = r then value else s.reg r' }

def setXmm (s : State) (x : Xmm) (value : BitVec 64) : State :=
  { s with xmm := fun x' => if x' = x then value else s.xmm x' }

def store (s : State) (address : BitVec 64) {bytes : Nat} (value : BitVec (8 * bytes)) : State :=
  { s with memory := s.memory.store address value }

def source (s : State) (size : Size) : Operand → Option (BitVec size.bits)
  | .reg r size' => if size' = size then some ((s.reg r).setWidth _) else none
  | .mem size' a => if size' = size then some (s.memory.load (s.address a) size.bytes) else none
  | .imm value => some (value.setWidth _)
  | .xmm _ => none

/-- What an operand of one of some sizes holds, extended to a whole register. -/
def extended (s : State) (sizes : List Size) (signed : Bool) (operand : Operand) :
    Option (BitVec 64) := do
  let size ← operand.size?
  if size ∈ sizes then
    let value ← s.source size operand
    return if signed then value.signExtend 64 else value.setWidth 64
  else none

def exec (s : State) : Instr → Option State
  | .mov (.reg r size) src =>
    (s.source size src).map fun value => s.setReg r (size.written (s.reg r) value)
  | .mov (.mem ..) (.mem ..) => none
  | .mov (.mem size a) src => (s.source size src).map (s.store (s.address a))
  | .movsx (.reg r .qword) src => (s.extended [.byte, .word] true src).map (s.setReg r)
  | .movsxd (.reg r .qword) src => (s.extended [.dword] true src).map (s.setReg r)
  | .movzx (.reg r .dword) src => (s.extended [.byte, .word] false src).map (s.setReg r)
  | .alu .add (.reg r .qword) src =>
    (s.source .qword src).map fun value => s.setReg r (s.reg r + value.setWidth 64)
  | .alu .sub (.reg r .qword) src =>
    (s.source .qword src).map fun value => s.setReg r (s.reg r - value.setWidth 64)
  | .push (.reg r .qword) =>
    let top := s.reg .rsp - 8
    some ((s.setReg .rsp top).store top ((s.reg r).setWidth (8 * 8)))
  | .movFloat width (.xmm x) (.xmm y) =>
    let size := Size.ofTy (.float width)
    some (s.setXmm x (replaceLow (s.xmm x) ((s.xmm y).setWidth size.bits)))
  | .movFloat width (.xmm x) (.mem size a) =>
    if size = .ofTy (.float width) then
      some (s.setXmm x ((s.memory.load (s.address a) size.bytes).setWidth 64))
    else none
  | .movFloat width (.mem size a) (.xmm x) =>
    if size = .ofTy (.float width) then
      some (s.store (s.address a) ((s.xmm x).setWidth (8 * size.bytes)))
    else none
  | _ => none

def run (s : State) (code : List Instr) : Option State :=
  code.foldlM exec s

variable {s t u : State} {i : Instr} {code code' : List Instr} {r : Reg} {x : Xmm}

theorem run_cons (s : State) (i : Instr) (code : List Instr) :
    s.run (i :: code) = (s.exec i).bind fun t => t.run code :=
  rfl

theorem run_append (h : s.run code = some t) (h' : t.run code' = some u) :
    s.run (code ++ code') = some u := by
  rw [run, List.foldlM_append, ← run, h]
  exact h'

theorem run_single (h : s.exec i = some t) : s.run [i] = some t := by
  rw [run_cons, h]
  rfl

theorem setWidth_replaceLow (old : BitVec 64) {n : Nat} (hn : n ≤ 64) (value : BitVec n) :
    (replaceLow old value).setWidth n = value := by
  ext i hi
  have hlt : i < 64 := by omega
  simp [replaceLow, hi, hlt]

theorem setWidth_written (size : Size) (old : BitVec 64) (value : BitVec size.bits) :
    (size.written old value).setWidth size.bits = value := by
  have hbits : size.bits ≤ 64 := by cases size <;> decide
  unfold Size.written
  split
  · exact (BitVec.setWidth_setWidth_of_le value hbits).trans (BitVec.setWidth_eq value)
  · exact setWidth_replaceLow old hbits value

theorem setWidth_qword (value : BitVec 64) :
    (value.setWidth Size.qword.bits).setWidth 64 = value := by
  rw [BitVec.setWidth_setWidth_of_le _ (by decide), BitVec.setWidth_eq]

@[simp] theorem reg_setReg_self (value : BitVec 64) : (s.setReg r value).reg r = value :=
  if_pos rfl

@[simp] theorem xmm_setXmm_self (value : BitVec 64) : (s.setXmm x value).xmm x = value :=
  if_pos rfl

/-! ## What stays -/

/-- Nothing but some registers and some bytes of memory has changed. -/
structure Changes (regs : List Reg) (xmms : List Xmm) (area : BitVec 64 → Prop) (s t : State) :
    Prop where
  reg : ∀ r ∉ regs, t.reg r = s.reg r
  xmm : ∀ x ∉ xmms, t.xmm x = s.xmm x
  memory : ∀ a, ¬ area a → t.memory a = s.memory a
  entry : t.entry = s.entry

namespace Changes

variable {regs regs' : List Reg} {xmms xmms' : List Xmm} {area area' : BitVec 64 → Prop}

theorem refl (s : State) : Changes regs xmms area s s :=
  ⟨fun _ _ => rfl, fun _ _ => rfl, fun _ _ => rfl, rfl⟩

theorem trans (h : Changes regs xmms area s t) (h' : Changes regs xmms area t u) :
    Changes regs xmms area s u := by
  refine ⟨fun r hr => ?_, fun x hx => ?_, fun a ha => ?_, h'.entry.trans h.entry⟩
  · exact (h'.reg r hr).trans (h.reg r hr)
  · exact (h'.xmm x hx).trans (h.xmm x hx)
  · exact (h'.memory a ha).trans (h.memory a ha)

theorem mono (h : Changes regs xmms area s t) (hregs : regs ⊆ regs') (hxmms : xmms ⊆ xmms')
    (harea : ∀ a, area a → area' a) : Changes regs' xmms' area' s t := by
  refine ⟨fun r hr => ?_, fun x hx => ?_, fun a ha => ?_, h.entry⟩
  · exact h.reg r fun hmem => hr (hregs hmem)
  · exact h.xmm x fun hmem => hx (hxmms hmem)
  · exact h.memory a fun hmem => ha (harea a hmem)

theorem setReg (s : State) (hr : r ∈ regs) (value : BitVec 64) :
    Changes regs xmms area s (s.setReg r value) := by
  refine ⟨fun r' hr' => if_neg ?_, fun _ _ => rfl, fun _ _ => rfl, rfl⟩
  rintro rfl
  exact hr' hr

theorem setXmm (s : State) (hx : x ∈ xmms) (value : BitVec 64) :
    Changes regs xmms area s (s.setXmm x value) := by
  refine ⟨fun _ _ => rfl, fun x' hx' => if_neg ?_, fun _ _ => rfl, rfl⟩
  rintro rfl
  exact hx' hx

theorem store (s : State) {address : BitVec 64} {bytes : Nat}
    (harea : ∀ a, (a - address).toNat < bytes → area a) (value : BitVec (8 * bytes)) :
    Changes regs xmms area s (s.store address value) := by
  refine ⟨fun _ _ => rfl, fun _ _ => rfl, fun a ha => if_neg ?_, rfl⟩
  exact fun hlt => ha (harea a hlt)

end Changes

end State

end Cinder.Machine
