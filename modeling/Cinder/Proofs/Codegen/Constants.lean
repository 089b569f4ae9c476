import Cinder.Proofs.Codegen.Movement
import Cinder.Proofs.Constant
import Cinder.Proofs.Machine.Arithmetic

/-!
# Constants while code runs

How the values of constants are kept while code runs: as immediates, in the registers that
variables get and in the frame.  Loading such a value sets a whole register to its integer,
and writing a register back leaves the value of its low bytes.
-/

namespace Cinder

open Codegen Machine

namespace Constant

def bytes : (c : Constant) → BitVec (Size.ofTy c.ty).bits
  | .int _ _ bits => bits.setWidth _
  | .float _ bits => bits.setWidth _
  | .bool value => BitVec.ofNat _ value.toNat

theorem bits_ofTy_int (width : Width) (signed : Bool) :
    (Size.ofTy (.int width signed)).bits = width.bits := by
  cases width <;> rfl

theorem valueClass_of_toInt? {c : Constant} {n : Int} (h : c.toInt? = some n) :
    c.ty.valueClass = .general := by
  cases c with
  | int => rfl
  | float => cases h
  | bool => rfl

theorem reading_bytes {c : Constant} {n : Int} (h : c.toInt? = some n) :
    reading c.ty.isSigned c.bytes = n := by
  have hcut : ∀ {m k : Nat} (signed : Bool) (x : BitVec m), k = m →
      reading signed (x.setWidth k) = reading signed x := by
    rintro m k signed x rfl
    rw [BitVec.setWidth_eq]
  cases c with
  | float => cases h
  | int width signed bits =>
    rw [toInt?_int] at h
    exact (hcut signed bits (bits_ofTy_int width signed)).trans (Option.some.inj h)
  | bool value =>
    obtain rfl := Option.some.inj h
    cases value <;> rfl

theorem bytes_ofInt (width : Width) (signed : Bool) (n : Int) :
    (Constant.ofInt width signed n).bytes = BitVec.ofInt _ n :=
  setWidth_ofInt (bits_ofTy_int width signed).le n

end Constant

/-! ## Where values are kept -/

abbrev Machine.transitRegs : List Reg :=
  [.rax, .rdx, scratch]

namespace Location

/-- Where integers and booleans are kept between instructions: in a register for variables
or in the frame. -/
def IsHome : Location → Prop
  | .reg r => r ∈ allocatableRegs
  | .xmm _ => False
  | .stack _ => True

instance : (location : Location) → Decidable location.IsHome
  | .reg r => inferInstanceAs (Decidable (r ∈ allocatableRegs))
  | .xmm _ => inferInstanceAs (Decidable False)
  | .stack _ => inferInstanceAs (Decidable True)

def regs : Location → List Reg
  | .reg r => [r]
  | _ => []

theorem IsHome.suits {location : Location} (h : location.IsHome) {ty : Ty}
    (hty : ty.valueClass = .general) : (Value.place (.ofLocation ty location)).Suits ty := by
  cases location with
  | reg r => exact hty
  | xmm x => cases h
  | stack offset => rfl

end Location

namespace Machine.State

/-- A value stands for a constant: it is the integer itself, or the place of a variable that
holds its bytes. -/
def Holds (s : State) (k : Constant) : Value → Prop
  | .imm word => k.toInt?.map (BitVec.ofInt 64) = some word
  | .place place => ∃ location : Location, location.IsHome ∧ place = .ofLocation k.ty location ∧
      s.value k.ty (.place place) = k.bytes

def extent (s : State) (ty : Ty) : Location → BitVec 64 → Prop
  | .stack offset => span (s.address (.frame offset)) (Size.ofTy ty).bytes
  | _ => nowhere

variable {s t : State} {k : Constant} {value : Value} {location : Location} {ty : Ty}

theorem Changes.transit {rs : List Reg} (h : Changes rs [] nowhere s t)
    (hrs : rs ⊆ transitRegs) : Changes transitRegs [] nowhere s t :=
  h.mono hrs (List.Subset.refl _) fun _ => id

namespace Holds

theorem suits (h : s.Holds k value) {n : Int} (hn : k.toInt? = some n) : value.Suits k.ty := by
  have hty := Constant.valueClass_of_toInt? hn
  cases value with
  | imm word => exact hty
  | place place =>
    obtain ⟨location, hhome, rfl, -⟩ := h
    exact hhome.suits hty

/-- Extended to a whole register, the value of a constant is its integer. -/
theorem word_eq (h : s.Holds k value) {n : Int} (hn : k.toInt? = some n) :
    s.word k.ty value = BitVec.ofInt 64 n := by
  cases value with
  | imm word =>
    have hword : k.toInt?.map (BitVec.ofInt 64) = some word := h
    rw [hn] at hword
    exact (Option.some.inj hword).symm
  | place place =>
    obtain ⟨location, -, -, hvalue⟩ := h
    rw [word, hvalue, ← Constant.reading_bytes hn]
    cases k.ty.isSigned with
    | true => rfl
    | false => exact (BitVec.ofNat_toNat 64 _).symm.trans (BitVec.ofInt_natCast 64 _).symm

theorem of_changes (h : s.Holds k value) (hchanges : Changes transitRegs [] nowhere s t) :
    t.Holds k value := by
  cases value with
  | imm word => exact h
  | place place =>
    obtain ⟨location, hhome, rfl, hvalue⟩ := h
    refine ⟨location, hhome, rfl, Eq.trans ?_ hvalue⟩
    have happart : ∀ r ∈ allocatableRegs, r ∉ transitRegs := by decide
    cases location with
    | reg r => exact congrArg (BitVec.setWidth _) (hchanges.reg r (happart r hhome))
    | xmm x => cases hhome
    | stack offset =>
      have haddress : t.address (.frame offset) = s.address (.frame offset) :=
        congrArg (· + _) (hchanges.reg .rbp (by decide))
      change t.memory.load _ _ = s.memory.load _ _
      rw [haddress]
      exact Memory.load_congr fun i _ => hchanges.memory _ id

end Holds

theorem extent_of_changes (hchanges : Changes transitRegs [] nowhere s t) (ty : Ty)
    (location : Location) : t.extent ty location = s.extent ty location := by
  cases location with
  | reg r => rfl
  | xmm x => rfl
  | stack offset =>
    have hrbp : t.reg .rbp = s.reg .rbp := hchanges.reg .rbp (by decide)
    simp only [extent, address, hrbp]

theorem exists_run_storeHome (hhome : location.IsHome) {r : Reg} (hr : r ∈ transitRegs) (ty : Ty)
    (s : State) :
    ∃ t, s.run (storeInteger (.ofLocation ty location) r ty) = some t ∧
      Changes location.regs [] (s.extent ty location) s t ∧
      t.value ty (.place (.ofLocation ty location)) = (s.reg r).setWidth _ := by
  have hsource : s.source (.ofTy ty) (.reg r (.ofTy ty)) = some ((s.reg r).setWidth _) := if_pos rfl
  have happart : ∀ r' ∈ allocatableRegs, r' ∉ transitRegs := by decide
  cases location with
  | xmm x => cases hhome
  | reg r' =>
    have hne : Place.reg r' ≠ .reg r := by
      rintro ⟨⟩
      exact happart r hhome hr
    rw [Place.ofLocation, storeInteger, if_neg hne]
    refine ⟨_, run_single (congrArg (Option.map _) hsource), .setReg s List.mem_cons_self _, ?_⟩
    refine (congrArg (BitVec.setWidth _) (reg_setReg_self _)).trans ?_
    exact setWidth_written _ _ _
  | stack offset =>
    have hbytes : (Size.ofTy ty).bytes ≤ 2 ^ 64 := by cases Size.ofTy ty <;> decide
    rw [Place.ofLocation, storeInteger, if_neg (by rintro ⟨⟩)]
    refine ⟨_, run_single (congrArg (Option.map _) hsource), .store s (fun _ h => h) _, ?_⟩
    refine (Memory.load_store (Nat.le_refl _) hbytes).trans ?_
    exact BitVec.setWidth_eq _

end Machine.State

namespace Codegen

variable {code : List Instr} {r : Reg} {value : Value} {ty : Ty}

theorem isMove_extend (r : Reg) (source : Machine.Operand) (ty : Ty) :
    (extend r source ty).isMove = true := by
  unfold extend
  split <;> rfl

theorem isMove_loadInteger (h : loadInteger r value ty = .ok code) :
    ∀ i ∈ code, i.isMove = true := by
  unfold loadInteger at h
  split at h
  · cases h
    exact List.forall_mem_singleton.2 rfl
  · cases h
  · split at h
    · cases h
      exact List.forall_mem_nil _
    · cases h
      exact List.forall_mem_singleton.2 (isMove_extend ..)

theorem isMove_storeInteger (place : Place) (r : Reg) (ty : Ty) :
    ∀ i ∈ storeInteger place r ty, i.isMove = true := by
  unfold storeInteger
  split
  · exact List.forall_mem_nil _
  · exact List.forall_mem_singleton.2 rfl

end Codegen

/-! ## Loading and leaving values -/

namespace Machine.Core

variable {c d : Core} {k : Constant} {value : Value} {location : Location} {code : List Instr}
  {n : Int}

/-- Loading the value of a constant sets the whole register to its integer. -/
theorem exists_run_load (h : c.Holds k value) (hn : k.toInt? = some n) (r : Reg) :
    ∃ (code : List Instr) (d : Core), loadInteger r value k.ty = .ok code ∧ c.run code = .ok d ∧
      State.Changes [r] [] State.nowhere c.toState d.toState ∧ d.reg r = BitVec.ofInt 64 n := by
  have hsuits := h.suits hn
  have hty := Constant.valueClass_of_toInt? hn
  obtain ⟨code, hcode⟩ := exists_loadInteger r hsuits hty
  obtain ⟨t, hrun, hchanges, hword⟩ := State.exists_run_loadWord hcode hsuits hty c.toState
  refine ⟨code, { c with toState := t }, hcode, ?_, hchanges, hword.trans (h.word_eq hn)⟩
  exact run_of_isMove (isMove_loadInteger hcode) hrun

/-- Running code leaves a constant at a location, and changes nothing else but registers
that calculations go through. -/
def Leaves (c : Core) (code : List Instr) (location : Location) (k : Constant) : Prop :=
  ∃ d : Core, c.run code = .ok d ∧ d.Holds k (.place (.ofLocation k.ty location)) ∧
    State.Changes (transitRegs ++ location.regs) [] (c.extent k.ty location) c.toState d.toState

section

variable (hrun : c.run code = .ok d)
  (hchanges : State.Changes transitRegs [] State.nowhere c.toState d.toState)

include hrun hchanges

theorem leaves_of_store {r : Reg}
    (hr : r ∈ transitRegs) (hbytes : (d.reg r).setWidth _ = k.bytes) (hhome : location.IsHome) :
    c.Leaves (code ++ storeInteger (.ofLocation k.ty location) r k.ty) location k := by
  obtain ⟨t, hstore, hstored, hvalue⟩ := State.exists_run_storeHome hhome hr k.ty d.toState
  refine ⟨{ d with toState := t }, ?_, ⟨location, hhome, rfl, hvalue.trans hbytes⟩, ?_⟩
  · rw [run_append_of_ok hrun]
    exact run_of_isMove (isMove_storeInteger _ _ _) hstore
  · rw [State.extent_of_changes hchanges] at hstored
    have hcalculated : State.Changes (transitRegs ++ location.regs) []
        (c.extent k.ty location) c.toState d.toState :=
      hchanges.mono (List.subset_append_left ..) (List.Subset.refl _) (fun _ => False.elim)
    exact hcalculated.trans
      (hstored.mono (List.subset_append_right ..) (List.Subset.refl _) (fun _ => id))

theorem leaves_ofInt {r : Reg}
    (hr : r ∈ transitRegs) (hreg : d.reg r = BitVec.ofInt 64 n) (hhome : location.IsHome)
    (width : Width) (signed : Bool) :
    c.Leaves (code ++ storeInteger (.ofLocation (.int width signed) location) r (.int width signed))
      location (.ofInt width signed n) := by
  refine leaves_of_store (k := .ofInt width signed n) hrun hchanges hr ?_ hhome
  rw [hreg, Constant.bytes_ofInt]
  exact setWidth_ofInt (Size.bits_le _) n

end

end Machine.Core

end Cinder
