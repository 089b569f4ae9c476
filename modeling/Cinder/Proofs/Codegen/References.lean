import Cinder.Proofs.Codegen.Routines

/-!
# What code refers to

The code of an instruction defines a label only if it is one, jumps to the blocks that
the instruction jumps to, calls what it calls, and reads the entries of the data section
that the instruction asks for.
-/

namespace Cinder

open Cinder.Flow Codegen Machine

namespace Machine

def Operand.dataIndex? : Operand → Option Nat
  | .mem _ (.data entry) => some entry
  | _ => none

def Operand.regs : Operand → List Reg
  | .reg r _ => [r]
  | _ => []

namespace Instr

@[simp] def operands : Instr → List Operand
  | .mov dst src => [dst, src]
  | .movsx dst src => [dst, src]
  | .movsxd dst src => [dst, src]
  | .movzx dst src => [dst, src]
  | .alu _ dst src => [dst, src]
  | .set _ dst => [dst]
  | .idiv src => [src]
  | .div src => [src]
  | .push src => [src]
  | .pop dst => [dst]
  | .movFloat _ dst src => [dst, src]
  | .floatAlu _ _ dst src => [dst, src]
  | .clear dst => [dst]
  | .intToFloat _ dst src => [dst, src]
  | .floatToInt _ dst src => [dst, src]
  | .floatToFloat _ _ dst src => [dst, src]
  | _ => []

@[simp] def sets : Instr → List Reg
  | .mov dst _ => dst.regs
  | .movsx dst _ => dst.regs
  | .movsxd dst _ => dst.regs
  | .movzx dst _ => dst.regs
  | .alu _ dst _ => dst.regs
  | .set _ dst => dst.regs
  | .cqo => [.rdx]
  | .idiv _ => [.rax, .rdx]
  | .div _ => [.rax, .rdx]
  | .push _ => [.rsp]
  | .pop dst => .rsp :: dst.regs
  | .jmp _ => []
  | .jne _ => []
  | .call _ => [.rsp]
  | .ret => [.rsp]
  | .syscall => [.rax, .rcx, .r11]
  | .movFloat _ dst _ => dst.regs
  | .floatAlu _ _ dst _ => dst.regs
  | .clear dst => dst.regs
  | .intToFloat _ dst _ => dst.regs
  | .floatToInt _ dst _ => dst.regs
  | .floatToFloat _ _ dst _ => dst.regs

@[simp] def target? : Instr → Option String
  | .jmp label => some label
  | .jne label => some label
  | .call label => some label
  | _ => none

end Instr

namespace Line

def label? : Line → Option String
  | .label name => some name
  | _ => none

def target? : Line → Option String
  | .instr i => i.target?
  | _ => none

def entries : Line → List Nat
  | .instr i => i.operands.filterMap Operand.dataIndex?
  | _ => []

end Line

end Machine

/-- A floating point operand is asked for, unless it is the condition of a branch. -/
theorem Flow.Instruction.mem_poolRequests {i : Instruction} {width : FloatWidth}
    {bits : FloatBits width} (h : .constant (.float width bits) ∈ i.operands)
    (hbranch : i.isBranch = false) : .float width bits ∈ i.poolRequests := by
  cases i with
  | branch => cases hbranch
  | _ => exact List.mem_filterMap.2 ⟨_, h, rfl⟩

/-! ## Straight code -/

namespace Codegen

def Value.dataIndex? : Value → Option Nat
  | .place (.mem _ (.data entry)) => some entry
  | _ => none

def Place.regs : Place → List Reg
  | .reg r => [r]
  | _ => []

def Value.regs : Value → List Reg
  | .place p => p.regs
  | .imm _ => []

@[simp] def working : List Reg :=
  [.rax, .rdx, scratch]

/-- An instruction goes on to the next one, and what it refers to in the data section are
values of a list. -/
structure Reads (values : List Value) (i : Instr) : Prop where
  straight : i.target? = none
  entries : ∀ operand ∈ i.operands,
    operand.dataIndex? = none ∨ ∃ v ∈ values, operand.dataIndex? = v.dataIndex?

/-- An instruction also sets no registers but the working ones and values of the list. -/
structure Touches (values : List Value) (i : Instr) : Prop extends Reads values i where
  sets : ∀ r ∈ i.sets, r ∈ working ∨ ∃ v ∈ values, r ∈ v.regs

variable {r : Reg} {x : Xmm} {place destination result : Place} {value source lhs rhs : Value}
  {values values' : List Value} {ty operandTy resultTy : Ty} {code : List Instr} {i : Instr}

theorem Touches.mono (h : Touches values i) (hsubset : values ⊆ values') : Touches values' i := by
  refine ⟨⟨h.straight, fun operand hoperand => (h.entries operand hoperand).imp_right ?_⟩,
    fun r hr => (h.sets r hr).imp_right ?_⟩
  · rintro ⟨v, hv, hentry⟩
    exact ⟨v, hsubset hv, hentry⟩
  · rintro ⟨v, hv, hmem⟩
    exact ⟨v, hsubset hv, hmem⟩

@[simp] theorem dataIndex?_place_operand (ty : Ty) (place : Place) :
    (place.operand ty).dataIndex? = (Value.place place).dataIndex? := by
  cases place with
  | mem size address => cases address <;> rfl
  | _ => rfl

@[simp] theorem dataIndex?_operand (ty : Ty) (value : Value) :
    (value.operand ty).dataIndex? = value.dataIndex? := by
  cases value with
  | place place => exact dataIndex?_place_operand ty place
  | imm value => rfl

@[simp] theorem dataIndex?_reg (r : Reg) (size : Size) :
    (Machine.Operand.reg r size).dataIndex? = none :=
  rfl

@[simp] theorem dataIndex?_xmm (x : Xmm) : (Machine.Operand.xmm x).dataIndex? = none :=
  rfl

@[simp] theorem dataIndex?_imm (value : BitVec 64) :
    (Machine.Operand.imm value).dataIndex? = none :=
  rfl

@[simp] theorem regs_reg (r : Reg) (size : Size) : (Machine.Operand.reg r size).regs = [r] :=
  rfl

@[simp] theorem regs_xmm (x : Xmm) : (Machine.Operand.xmm x).regs = [] :=
  rfl

@[simp] theorem regs_mem (size : Size) (address : Address) :
    (Machine.Operand.mem size address).regs = [] :=
  rfl

@[simp] theorem regs_place (place : Place) : (Value.place place).regs = place.regs :=
  rfl

@[simp] theorem regs_place_reg (r : Reg) : (Place.reg r).regs = [r] :=
  rfl

@[simp] theorem regs_operand (ty : Ty) (place : Place) : (place.operand ty).regs = place.regs := by
  cases place <;> rfl

def TouchesAll (values : List Value) (code : List Instr) : Prop :=
  ∀ i ∈ code, Touches values i

@[simp] theorem touches_iff : Touches values i ↔ i.target? = none ∧
    (∀ operand ∈ i.operands,
      operand.dataIndex? = none ∨ ∃ v ∈ values, operand.dataIndex? = v.dataIndex?) ∧
    ∀ r ∈ i.sets, r ∈ working ∨ ∃ v ∈ values, r ∈ v.regs :=
  ⟨fun h => ⟨h.straight, h.entries, h.sets⟩, fun h => ⟨⟨h.1, h.2.1⟩, h.2.2⟩⟩

namespace TouchesAll

variable {code' : List Instr}

@[simp] theorem nil : TouchesAll values [] :=
  List.forall_mem_nil _

@[simp] theorem cons_iff :
    TouchesAll values (i :: code) ↔ Touches values i ∧ TouchesAll values code :=
  List.forall_mem_cons

theorem append (h : TouchesAll values code) (h' : TouchesAll values code') :
    TouchesAll values (code ++ code') :=
  List.forall_mem_append.2 ⟨h, h'⟩

theorem of_mem (h : TouchesAll [value] code) (hvalue : value ∈ values) : TouchesAll values code :=
  fun i hi => (h i hi).mono (List.cons_subset.2 ⟨hvalue, List.nil_subset _⟩)

/-- A value need not be listed if it is outside the data section and is a working register
or none. -/
theorem of_cons (h : TouchesAll (value :: values) code) (hdata : value.dataIndex? = none)
    (hregs : ∀ r ∈ value.regs, r ∈ working) : TouchesAll values code := by
  refine fun i hi => ⟨⟨(h i hi).straight, fun operand hoperand => ?_⟩, fun r hr => ?_⟩
  · rcases (h i hi).entries operand hoperand with hnone | ⟨v, hv, hentry⟩
    · exact .inl hnone
    · rcases List.mem_cons.1 hv with rfl | hv
      · exact .inl (hentry.trans hdata)
      · exact .inr ⟨v, hv, hentry⟩
  · rcases (h i hi).sets r hr with hworking | ⟨v, hv, hmem⟩
    · exact .inl hworking
    · rcases List.mem_cons.1 hv with rfl | hv
      · exact .inl (hregs r hmem)
      · exact .inr ⟨v, hv, hmem⟩

end TouchesAll

theorem touchesAll_loadInteger (h : loadInteger r value ty = .ok code) :
    TouchesAll [.place (.reg r), value] code := by
  have hextend : ∀ place : Place,
      TouchesAll [.place (.reg r), .place place] [extend r (place.operand ty) ty] := by
    intro place
    unfold extend
    split <;> simp
  unfold loadInteger at h
  split at h
  · cases h
    simp
  · cases h
  · split at h
    · cases h
      exact .nil
    · cases h
      exact hextend _

theorem touchesAll_loadWorking (h : loadInteger r value ty = .ok code) (hr : r ∈ working)
    (hvalue : value ∈ values) : TouchesAll values code :=
  ((touchesAll_loadInteger h).of_cons rfl (List.forall_mem_singleton.2 hr)).of_mem hvalue

theorem touchesAll_storeInteger (hplace : .place place ∈ values) :
    TouchesAll values (storeInteger place r ty) := by
  have hself : TouchesAll [.place place] (storeInteger place r ty) := by
    unfold storeInteger
    split <;> simp +contextual
  exact hself.of_mem hplace

theorem touchesAll_moveFloat {width : FloatWidth} :
    TouchesAll [.place destination, source] (moveFloat destination source width) := by
  unfold moveFloat
  split <;> simp +contextual

theorem touchesAll_moveInteger :
    TouchesAll [.place destination, source] (moveInteger destination source ty) := by
  unfold moveInteger
  split
  · simp +contextual
  · split <;> simp +contextual
  · simp +contextual

theorem touchesAll_move : TouchesAll [.place destination, source] (move destination source ty) := by
  unfold move
  split
  · exact .nil
  · split
    · exact touchesAll_moveFloat
    · exact touchesAll_moveInteger

theorem touchesAll_moveToXmm (hvalue : value ∈ values) :
    TouchesAll values (move (.xmm x) value ty) :=
  (touchesAll_move.of_cons rfl (List.forall_mem_nil _)).of_mem hvalue

theorem touchesAll_moveFromXmm (hplace : .place place ∈ values) :
    TouchesAll values (move place (.place (.xmm x)) ty) := by
  have hself : TouchesAll [.place (.xmm x), .place place] (move place (.place (.xmm x)) ty) :=
    fun i hi => (touchesAll_move i hi).mono (List.Perm.swap ..).subset
  exact (hself.of_cons rfl (List.forall_mem_nil _)).of_mem hplace

/-! ## Operations -/

theorem Reads.of_none (hstraight : i.target? = none)
    (hentries : ∀ operand ∈ i.operands, operand.dataIndex? = none) : Reads values i :=
  ⟨hstraight, fun operand hoperand => .inl (hentries operand hoperand)⟩

theorem touchesAll_divide (signed : Bool) : TouchesAll values (divide signed) := by
  cases signed <;> simp [divide]

variable {op : Operator}

theorem touchesAll_integerBinary
    (h : integerBinary result lhs op rhs operandTy resultTy = .ok code) :
    TouchesAll [.place result, lhs, rhs] code := by
  have hparts : ∀ {loadLhs loadRhs middle : List Instr} {a b c : Reg},
      loadInteger a lhs operandTy = .ok loadLhs → loadInteger b rhs operandTy = .ok loadRhs →
      a ∈ working → b ∈ working → TouchesAll [.place result, lhs, rhs] middle →
      TouchesAll [.place result, lhs, rhs]
        (loadLhs ++ loadRhs ++ middle ++ storeInteger result c resultTy) := by
    intro loadLhs loadRhs middle a b c hlhs hrhs ha hb hmiddle
    have hloadLhs := touchesAll_loadWorking hlhs ha (by simp : lhs ∈ [.place result, lhs, rhs])
    have hloadRhs := touchesAll_loadWorking hrhs hb (by simp : rhs ∈ [.place result, lhs, rhs])
    exact ((hloadLhs.append hloadRhs).append hmiddle).append (touchesAll_storeInteger (by simp))
  unfold integerBinary at h
  cases op with
  | div =>
    obtain ⟨loadLhs, hlhs, h⟩ := bind_eq_ok.1 h
    obtain ⟨loadRhs, hrhs, h⟩ := bind_eq_ok.1 h
    cases h
    exact hparts hlhs hrhs (by decide) (by decide) (touchesAll_divide _)
  | _ =>
    obtain ⟨loadLhs, hlhs, h⟩ := bind_eq_ok.1 h
    obtain ⟨loadRhs, hrhs, h⟩ := bind_eq_ok.1 h
    cases h
    exact hparts hlhs hrhs (by decide) (by decide) (by simp)

theorem touchesAll_floatBinary {width : FloatWidth} :
    TouchesAll [.place result, lhs, rhs] (floatBinary result lhs op rhs width) := by
  have harithmetic : ∀ alu, TouchesAll [.place result, lhs, rhs]
      (move (.xmm scratchXmm) lhs (.float width)
        ++ [Instr.floatAlu alu width (.xmm scratchXmm) (rhs.operand (.float width))]
        ++ move result (.place (.xmm scratchXmm)) (.float width)) := by
    intro alu
    exact ((touchesAll_moveToXmm (by simp)).append (by simp)).append
      (touchesAll_moveFromXmm (by simp))
  have hcomparison : ∀ greater ∈ [lhs, rhs], ∀ less ∈ [lhs, rhs],
      TouchesAll [.place result, lhs, rhs] (move (.xmm scratchXmm) greater (.float width)
        ++ [Instr.floatAlu .comi width (.xmm scratchXmm) (less.operand (.float width)),
          .set .above al]
        ++ storeInteger result .rax .bool) := by
    intro greater hgreater less hless
    have hcompare : TouchesAll [less]
        [.floatAlu .comi width (.xmm scratchXmm) (less.operand (.float width)),
          .set .above al] := by
      simp
    exact ((touchesAll_moveToXmm (List.mem_cons_of_mem _ hgreater)).append
      (hcompare.of_mem (List.mem_cons_of_mem _ hless))).append (touchesAll_storeInteger (by simp))
  cases op with
  | greater => exact hcomparison lhs (by simp) rhs (by simp)
  | less => exact hcomparison rhs (by simp) lhs (by simp)
  | _ => exact harithmetic _

theorem touchesAll_binary (h : binary result lhs op rhs operandTy resultTy = .ok code) :
    TouchesAll [.place result, lhs, rhs] code := by
  unfold binary at h
  split at h
  · cases h
    exact touchesAll_floatBinary
  · exact touchesAll_integerBinary h

theorem touchesAll_cast {sourceTy targetTy : Ty}
    (h : cast result value sourceTy targetTy = .ok code) :
    TouchesAll [.place result, value] code := by
  unfold cast at h
  split at h
  · cases h
  · cases h
    exact TouchesAll.append (by simp) (touchesAll_storeInteger (by simp))
  · obtain ⟨load, hload, h⟩ := bind_eq_ok.1 h
    cases h
    exact ((touchesAll_loadWorking hload (by decide) (by simp)).append (by simp)).append
      (touchesAll_storeInteger (by simp))
  · split at h
    · cases h
    · cases h
      exact TouchesAll.append (by simp) (touchesAll_storeInteger (by simp))
  · obtain ⟨load, hload, h⟩ := bind_eq_ok.1 h
    cases h
    exact (touchesAll_loadWorking hload (by decide) (by simp)).append
      (touchesAll_storeInteger (by simp))
  · split at h
    · cases h
      exact touchesAll_move
    · cases h
      exact TouchesAll.append (by simp) (touchesAll_moveFromXmm (by simp))
  · split at h
    · cases h
    · obtain ⟨load, hload, h⟩ := bind_eq_ok.1 h
      cases h
      exact ((touchesAll_loadWorking hload (by decide) (by simp)).append (by simp)).append
        (touchesAll_moveFromXmm (by simp))

/-! ## Instructions -/

namespace Context

variable {context : Context} {i : Instruction} {live : VariableSet}

/-- A label is that of a block that an instruction jumps to, or of a function that it
calls. -/
def GoesTo (context : Context) (i : Instruction) (name : String) : Prop :=
  (∃ id, i.jumpsTo id = true ∧ name = context.function.labelOf id) ∨
    ∃ result callee operands, i = .call result callee operands ∧
      name = symbolName (context.table.nameOf callee)

/-- The lines of the code of an instruction define, go to and refer to what the
instruction does. -/
structure Refers (context : Context) (i : Instruction) (lines : List Line) : Prop where
  labels : ∀ {name}, .label name ∈ lines → ∃ id, i = .label id
  targets : ∀ {line name}, line ∈ lines → line.target? = some name → context.GoesTo i name
  entries : ∀ {line entry}, line ∈ lines → entry ∈ line.entries →
    ∃ c ∈ i.poolRequests, entry = context.pool.number c

/-- A value is outside the data section or holds a constant that an instruction asks for. -/
def Requested (context : Context) (i : Instruction) (value : Value) : Prop :=
  ∀ entry, value.dataIndex? = some entry → ∃ c ∈ i.poolRequests, entry = context.pool.number c

theorem dataIndex?_of_placeOf {v : Variable} {place : Place} (h : context.placeOf v = .ok place) :
    (Value.place place).dataIndex? = none := by
  obtain ⟨location, -, h⟩ := bind_eq_ok.1 h
  cases location with
  | reg r =>
    cases h
    rfl
  | xmm x =>
    cases h
    rfl
  | stack offset =>
    obtain ⟨ty, -, h⟩ := bind_eq_ok.1 h
    cases h
    rfl

/-- Floating point constants are read from the data section, and nothing else is. -/
theorem exists_of_valueOf {operand : Flow.Operand} {value : Value}
    (h : context.valueOf operand = .ok value) {entry : Nat}
    (hentry : value.dataIndex? = some entry) :
    ∃ width bits, operand = .constant (.float width bits) ∧
      entry = context.pool.number (.float width bits) := by
  cases operand with
  | var v =>
    obtain ⟨place, hplace, h⟩ := bind_eq_ok.1 h
    cases h
    cases (dataIndex?_of_placeOf hplace).symm.trans hentry
  | constant c =>
    cases c with
    | int width signed bits => cases signed <;> cases h <;> cases hentry
    | bool value =>
      cases h
      cases hentry
    | float width bits =>
      cases h
      cases hentry
      exact ⟨width, bits, rfl, rfl⟩

theorem requested_of_placeOf {v : Variable} {place : Place} (h : context.placeOf v = .ok place) :
    context.Requested i (.place place) := by
  intro entry hentry
  cases (dataIndex?_of_placeOf h).symm.trans hentry

theorem requested_of_valueOf {operand : Flow.Operand} {value : Value}
    (h : context.valueOf operand = .ok value) (hoperand : operand ∈ i.operands)
    (hbranch : i.isBranch = false) : context.Requested i value := by
  intro entry hentry
  obtain ⟨width, bits, rfl, rfl⟩ := exists_of_valueOf h hentry
  exact ⟨_, Instruction.mem_poolRequests hoperand hbranch, rfl⟩

theorem requested_of_reg (r : Reg) : context.Requested i (.place (.reg r)) := by
  intro entry hentry
  cases hentry

/-- A value is the place of a variable, or that of an operand of an instruction. -/
def Supplies (context : Context) (i : Instruction) (value : Value) : Prop :=
  (∃ v place, context.placeOf v = .ok place ∧ value = .place place) ∨
    ∃ operand ∈ i.operands, context.valueOf operand = .ok value

def Straight (context : Context) (i : Instruction) (lines : List Line) : Prop :=
  ∃ values code, lines = code.map .instr ∧ TouchesAll values code ∧
    ∀ v ∈ values, context.Supplies i v

namespace Refers

variable {lines lines' : List Line} {values : List Value} {code : List Instr}

theorem append (h : context.Refers i lines) (h' : context.Refers i lines') :
    context.Refers i (lines ++ lines') := by
  refine ⟨fun hmem => ?_, fun hmem => ?_, fun hmem => ?_⟩
  · exact (List.mem_append.1 hmem).elim h.labels h'.labels
  · exact (List.mem_append.1 hmem).elim h.targets h'.targets
  · exact (List.mem_append.1 hmem).elim h.entries h'.entries

theorem of_touchesAll (h : TouchesAll values code)
    (hvalues : ∀ v ∈ values, context.Requested i v) : context.Refers i (code.map .instr) := by
  refine ⟨fun hmem => ?_, fun hmem htarget => ?_, fun hmem hentry => ?_⟩
  · obtain ⟨_, -, heq⟩ := List.mem_map.1 hmem
    cases heq
  · obtain ⟨instr, hinstr, rfl⟩ := List.mem_map.1 hmem
    cases (h instr hinstr).straight.symm.trans htarget
  · obtain ⟨instr, hinstr, rfl⟩ := List.mem_map.1 hmem
    obtain ⟨operand, hoperand, hentry⟩ := List.mem_filterMap.1 hentry
    rcases (h instr hinstr).entries operand hoperand with hnone | ⟨v, hv, heq⟩
    · cases hnone.symm.trans hentry
    · exact hvalues v hv _ (heq.symm.trans hentry)

theorem of_plain (h : TouchesAll [] code) : context.Refers i (code.map .instr) :=
  of_touchesAll h (List.forall_mem_nil _)

theorem flatten {codes : List (List Instr)}
    (h : ∀ code ∈ codes, context.Refers i (code.map .instr)) :
    context.Refers i (codes.flatten.map .instr) := by
  induction codes with
  | nil => exact .of_plain .nil
  | cons code codes ih =>
    obtain ⟨hcode, hcodes⟩ := List.forall_mem_cons.1 h
    rw [List.flatten_cons, List.map_append]
    exact hcode.append (ih hcodes)

theorem of_target {instr : Instr} {name : String} (htarget : instr.target? = some name)
    (hoperands : instr.operands = []) (h : context.GoesTo i name) :
    context.Refers i ([instr].map .instr) := by
  constructor
  · intro name hmem
    cases List.mem_singleton.1 hmem
  · intro line name hmem hline
    cases List.mem_singleton.1 hmem
    cases htarget.symm.trans hline
    exact h
  · intro line entry hmem hentry
    cases List.mem_singleton.1 hmem
    rw [Line.entries, hoperands] at hentry
    cases hentry

end Refers

variable {lines : List Line}

theorem Straight.refers (h : context.Straight i lines) (hbranch : i.isBranch = false) :
    context.Refers i lines := by
  obtain ⟨values, code, rfl, htouches, hvalues⟩ := h
  refine .of_touchesAll htouches fun v hv => ?_
  rcases hvalues v hv with ⟨_, place, hplace, rfl⟩ | ⟨operand, hoperand, hvalue⟩
  · exact requested_of_placeOf hplace
  · exact requested_of_valueOf hvalue hoperand hbranch

/-! ### Calls -/

theorem touchesAll_pushArgument {value : Value} {ty : Ty} {code : List Instr}
    (h : pushArgument value ty = .ok code) : TouchesAll [.place (.reg .rsp), value] code := by
  unfold pushArgument at h
  split at h
  · cases h
    exact (touchesAll_moveToXmm (by simp)).append (by simp [Machine.Operand.dataIndex?])
  · obtain ⟨load, hload, h⟩ := bind_eq_ok.1 h
    cases h
    exact (touchesAll_loadWorking hload (by decide) (by simp)).append (by simp)

theorem refers_load {argument : Argument} {code : List Instr} (h : argument.load = .ok code)
    (hrequested : context.Requested i argument.value) : context.Refers i (code.map .instr) := by
  unfold Argument.load at h
  split at h
  · exact .of_touchesAll (touchesAll_loadInteger h)
      (List.forall_mem_cons.2 ⟨requested_of_reg _, List.forall_mem_singleton.2 hrequested⟩)
  · cases h
    exact .of_touchesAll (touchesAll_moveToXmm (List.mem_singleton_self _))
      (List.forall_mem_singleton.2 hrequested)
  · cases h
    exact .of_plain .nil

theorem straight_takeResult {result : Option Variable} {code : List Instr}
    (h : context.takeResult result = .ok code) : context.Straight i (code.map .instr) := by
  cases result with
  | none =>
    cases h
    exact ⟨[], [], rfl, .nil, List.forall_mem_nil _⟩
  | some v =>
    obtain ⟨ty, -, h⟩ := bind_eq_ok.1 h
    obtain ⟨place, hplace, h⟩ := bind_eq_ok.1 h
    refine ⟨[.place place], code, rfl, ?_, ?_⟩
    · split at h
      · cases h
        exact touchesAll_moveFromXmm (List.mem_singleton_self _)
      · cases h
        exact touchesAll_storeInteger (List.mem_singleton_self _)
    · exact List.forall_mem_singleton.2 (.inl ⟨v, place, hplace, rfl⟩)

theorem refers_saved {g : Xmm → Int → Instr} (hg : ∀ x offset, Touches [] (g x offset))
    (saved : List (Xmm × Int)) :
    context.Refers i ((saved.map fun slot => g slot.1 slot.2).map .instr) := by
  refine .of_plain fun instr hinstr => ?_
  obtain ⟨slot, -, rfl⟩ := List.mem_map.1 hinstr
  exact hg slot.1 slot.2

theorem refers_adjust (alu : Alu) (bytes : Nat) :
    context.Refers i ((adjust alu bytes).map .instr) := by
  unfold adjust
  split
  · exact .of_plain .nil
  · have htouches : TouchesAll [.place (.reg .rsp)] [.alu alu (full .rsp) (immediate bytes)] := by
      simp
    exact .of_touchesAll htouches (List.forall_mem_singleton.2 (requested_of_reg _))

theorem refers_call {result : Option Variable} {callee : SymbolId} {operands : List Flow.Operand}
    {c : CallCode} (h : context.Calls result operands live c) :
    context.Refers (.call result callee operands)
      ((c.code (symbolName (context.table.nameOf callee))).map .instr) := by
  have hrequested : ∀ argument ∈ c.arguments,
      context.Requested (.call result callee operands) argument.value := by
    intro argument hargument
    obtain ⟨operand, hoperand, hvalue, -⟩ :=
      forall₂_exists_left (passes_of_arguments h.arguments).operands hargument
    exact requested_of_valueOf (i := .call result callee operands) hvalue hoperand rfl
  have hpushes : context.Refers (.call result callee operands) (c.pushes.flatten.map .instr) := by
    refine .flatten fun code hcode => ?_
    obtain ⟨argument, hargument, hpush⟩ := forall₂_exists_left (forall₂_of_mapM h.pushes) hcode
    have hargument := List.mem_of_mem_filter (List.mem_reverse.1 hargument)
    exact .of_touchesAll (touchesAll_pushArgument hpush) (List.forall_mem_cons.2
      ⟨requested_of_reg _, List.forall_mem_singleton.2 (hrequested argument hargument)⟩)
  have hloads : context.Refers (.call result callee operands) (c.loads.flatten.map .instr) := by
    refine .flatten fun code hcode => ?_
    obtain ⟨argument, hargument, hload⟩ := forall₂_exists_left (forall₂_of_mapM h.loads) hcode
    exact refers_load hload (hrequested argument hargument)
  have hpark : ∀ x offset, Touches [] (park x offset) := by
    simp [park, Machine.Operand.dataIndex?]
  have hunpark : ∀ x offset, Touches [] (unpark x offset) := by
    simp [unpark, Machine.Operand.dataIndex?]
  have hjump : context.Refers (.call result callee operands)
      ([.call (symbolName (context.table.nameOf callee))].map .instr) :=
    .of_target rfl rfl (.inr ⟨result, callee, operands, rfl, rfl⟩)
  have htaking : context.Straight (.call result callee operands) (c.taking.map .instr) :=
    straight_takeResult h.taking
  simp only [CallCode.code, List.map_append (f := Line.instr)]
  exact (((((((refers_saved hpark _).append (refers_adjust ..)).append hpushes).append
    hloads).append hjump).append (refers_adjust ..)).append (htaking.refers rfl)).append
    (refers_saved hunpark _)

/-! ### Other instructions -/

theorem refers_branch {condition : Flow.Operand} {target : BlockId} {code : List Instr}
    (h : context.branch condition (context.function.labelOf target) = .ok code) :
    context.Refers (.branch condition target) (code.map .instr) := by
  have hgoes : context.GoesTo (.branch condition target) (context.function.labelOf target) :=
    .inl ⟨target, beq_self_eq_true target, rfl⟩
  cases condition with
  | constant c =>
    rw [branch] at h
    split at h
    · cases h
      exact .of_plain .nil
    · cases h
      exact .of_target rfl rfl hgoes
  | var v =>
    obtain ⟨place, hplace, h⟩ := bind_eq_ok.1 h
    cases h
    have hcompare : TouchesAll [.place place]
        [.alu .cmp (place.operand .bool) (immediate 0)] := by
      simp +contextual
    have hrequested := List.forall_mem_singleton.2
      (requested_of_placeOf (i := .branch (.var v) target) hplace)
    exact (Refers.of_touchesAll hcompare hrequested).append (.of_target rfl rfl hgoes)

theorem straight_returnValue {value : Option (Flow.Operand × Ty)} {code : List Instr}
    (h : context.returnValue value = .ok code) :
    context.Straight (.ret value) (code.map .instr) := by
  cases value with
  | none =>
    cases h
    exact ⟨[], [], rfl, .nil, List.forall_mem_nil _⟩
  | some p =>
    obtain ⟨operand, ty⟩ := p
    obtain ⟨value, hvalue, h⟩ := bind_eq_ok.1 h
    refine ⟨[value], code, rfl, ?_, ?_⟩
    · split at h
      · cases h
        exact touchesAll_moveToXmm (List.mem_singleton_self _)
      · exact touchesAll_loadWorking h (by decide) (List.mem_singleton_self _)
    · exact List.forall_mem_singleton.2 (.inr ⟨operand, List.mem_singleton_self operand, hvalue⟩)

theorem touchesAll_restoreRegisters (context : Context) :
    TouchesAll (context.placement.savedRegs.map fun slot => .place (.reg slot.1))
      context.restoreRegisters := by
  intro instr hinstr
  obtain ⟨slot, hslot, rfl⟩ := List.mem_map.1 hinstr
  refine ⟨.of_none rfl (by simp [Machine.Operand.dataIndex?]), ?_⟩
  exact List.forall_mem_singleton.2 (.inr ⟨_, List.mem_map_of_mem hslot, List.mem_singleton_self _⟩)

theorem refers_ret {value : Option (Flow.Operand × Ty)} {code : List Instr}
    (h : context.returnValue value = .ok code) :
    context.Refers (.ret value) ((code ++ context.restoreRegisters).map .instr ++ leaveFrame) := by
  have hrestore : context.Refers (.ret value) (context.restoreRegisters.map .instr) :=
    .of_touchesAll context.touchesAll_restoreRegisters
      (List.forall_mem_map.2 fun _ _ => requested_of_reg _)
  have hleave : TouchesAll [.place (.reg .rsp), .place (.reg .rbp)]
      [.mov (full .rsp) (full .rbp), .pop (full .rbp), .ret] := by
    simp
  have hframe : ∀ v ∈ [Value.place (.reg .rsp), .place (.reg .rbp)],
      context.Requested (.ret value) v := by
    simp [requested_of_reg]
  rw [List.map_append]
  exact (((straight_returnValue h).refers rfl).append hrestore).append
    (.of_touchesAll hleave hframe)

theorem straight_binary {result : Variable} {lhs rhs : Flow.Operand} {op : Operator}
    {operandTy resultTy : Ty}
    (h : context.select live (.binary result lhs op rhs operandTy resultTy) = .ok lines) :
    context.Straight (.binary result lhs op rhs operandTy resultTy) lines := by
  obtain ⟨place, hplace, h⟩ := bind_eq_ok.1 h
  obtain ⟨left, hleft, h⟩ := bind_eq_ok.1 h
  obtain ⟨right, hright, h⟩ := bind_eq_ok.1 h
  obtain ⟨code, hcode, h⟩ := bind_eq_ok.1 h
  cases h
  refine ⟨_, code, rfl, touchesAll_binary hcode, ?_⟩
  rw [List.forall_mem_cons, List.forall_mem_cons, List.forall_mem_singleton]
  exact ⟨.inl ⟨_, _, hplace, rfl⟩, .inr ⟨lhs, by simp [Instruction.operands], hleft⟩,
    .inr ⟨rhs, by simp [Instruction.operands], hright⟩⟩

theorem straight_cast {result : Variable} {source : Flow.Operand} {sourceTy targetTy : Ty}
    (h : context.select live (.cast result source sourceTy targetTy) = .ok lines) :
    context.Straight (.cast result source sourceTy targetTy) lines := by
  obtain ⟨place, hplace, h⟩ := bind_eq_ok.1 h
  obtain ⟨value, hvalue, h⟩ := bind_eq_ok.1 h
  obtain ⟨code, hcode, h⟩ := bind_eq_ok.1 h
  cases h
  refine ⟨_, code, rfl, touchesAll_cast hcode, ?_⟩
  rw [List.forall_mem_cons, List.forall_mem_singleton]
  exact ⟨.inl ⟨_, _, hplace, rfl⟩, .inr ⟨source, by simp [Instruction.operands], hvalue⟩⟩

theorem straight_store {destination : Variable} {value : Flow.Operand} {ty : Ty}
    (h : context.select live (.store destination value ty) = .ok lines) :
    context.Straight (.store destination value ty) lines := by
  obtain ⟨place, hplace, h⟩ := bind_eq_ok.1 h
  obtain ⟨source, hsource, h⟩ := bind_eq_ok.1 h
  cases h
  refine ⟨_, _, rfl, touchesAll_move, ?_⟩
  rw [List.forall_mem_cons, List.forall_mem_singleton]
  exact ⟨.inl ⟨_, _, hplace, rfl⟩, .inr ⟨value, by simp [Instruction.operands], hsource⟩⟩

theorem straight_load {result source : Variable} {ty : Ty}
    (h : context.select live (.load result source ty) = .ok lines) :
    context.Straight (.load result source ty) lines := by
  obtain ⟨place, hplace, h⟩ := bind_eq_ok.1 h
  obtain ⟨origin, horigin, h⟩ := bind_eq_ok.1 h
  cases h
  refine ⟨_, _, rfl, touchesAll_move, ?_⟩
  rw [List.forall_mem_cons, List.forall_mem_singleton]
  exact ⟨.inl ⟨_, _, hplace, rfl⟩, .inl ⟨_, _, horigin, rfl⟩⟩

/-- The code of an instruction refers to what the instruction does. -/
theorem refers_select (h : context.select live i = .ok lines) :
    context.Refers i lines := by
  cases i with
  | label block =>
    obtain ⟨name, hname, h⟩ := bind_eq_ok.1 h
    cases h
    constructor
    · exact fun _ => ⟨block, rfl⟩
    · intro line name hmem htarget
      cases List.mem_singleton.1 hmem
      cases htarget
    · intro line entry hmem hentry
      cases List.mem_singleton.1 hmem
      cases hentry
  | goto target =>
    obtain ⟨name, hname, h⟩ := bind_eq_ok.1 h
    obtain ⟨_, -, hname⟩ := bind_eq_ok.1 hname
    cases h
    cases hname
    exact .of_target rfl rfl (.inl ⟨target, beq_self_eq_true target, rfl⟩)
  | branch condition target =>
    obtain ⟨name, hname, h⟩ := bind_eq_ok.1 h
    obtain ⟨_, -, hname⟩ := bind_eq_ok.1 hname
    cases hname
    obtain ⟨code, hcode, h⟩ := bind_eq_ok.1 h
    cases h
    exact refers_branch hcode
  | call result callee operands =>
    obtain ⟨code, hcode, h⟩ := bind_eq_ok.1 h
    cases h
    obtain ⟨c, hc, rfl⟩ := call_eq_ok.1 hcode
    exact refers_call hc
  | ret value =>
    obtain ⟨load, hload, h⟩ := bind_eq_ok.1 h
    cases h
    exact refers_ret hload
  | binary result lhs op rhs operandTy resultTy => exact (straight_binary h).refers rfl
  | cast result source sourceTy targetTy => exact (straight_cast h).refers rfl
  | alloca result ty =>
    cases h
    exact .of_plain .nil
  | store destination value ty => exact (straight_store h).refers rfl
  | load result source ty => exact (straight_load h).refers rfl

end Context

end Codegen

end Cinder
