import Cinder.Proofs.Codegen.Passing
import Cinder.Proofs.Codegen.References

/-!
# Stack and frame pointers

Between entering its frame and leaving it, the code of a function writes the stack
pointer around call instructions only, and the frame pointer nowhere.
-/

namespace Cinder

open Cinder.Flow hiding State
open Codegen Machine

namespace Machine

def pointers : List Reg :=
  [.rsp, .rbp]

namespace Instr

def Steady (i : Instr) : Prop :=
  ∀ r ∈ i.sets, r ∉ pointers

end Instr

namespace State

variable {s t : State} {i : Instr} {code : List Instr}

/-- Running an instruction changes no register but those that it sets. -/
theorem reg_of_exec (h : s.exec i = some t) {r : Reg} (hr : r ∉ i.sets) : t.reg r = s.reg r := by
  have hset : ∀ {r' : Reg} {v : BitVec 64}, r ∉ [r'] → (s.setReg r' v).reg r = s.reg r :=
    fun hne => if_neg fun heq => hne (List.mem_singleton.2 heq)
  unfold exec at h
  split at h
  case h_1 | h_4 | h_5 | h_6 | h_7 | h_8 =>
    obtain ⟨value, -, rfl⟩ := Option.map_eq_some_iff.1 h
    exact hset hr
  · cases h
  · obtain ⟨value, -, rfl⟩ := Option.map_eq_some_iff.1 h
    rfl
  · cases h
    exact hset hr
  · cases h
    rfl
  · split at h
    · cases h
      rfl
    · cases h
  · split at h
    · cases h
      rfl
    · cases h
  · cases h

/-- An instruction takes a state to another: as it is run, or, where that is not laid down,
with no general register changed but those that it sets. -/
def Steps (s : State) (i : Instr) (t : State) : Prop :=
  s.exec i = some t ∨ s.exec i = none ∧ ∀ r ∉ i.sets, t.reg r = s.reg r

/-- Straight code takes a state to another, one instruction after the other. -/
inductive Traverses : State → List Instr → State → Prop
  | nil (s : State) : Traverses s [] s
  | cons {s t u : State} {i : Instr} {code : List Instr} (h : s.Steps i t)
      (h' : Traverses t code u) : Traverses s (i :: code) u

theorem traverses_of_run (h : s.run code = some t) : s.Traverses code t := by
  induction code generalizing s with
  | nil =>
    cases h
    exact .nil _
  | cons i code ih =>
    rw [run_cons] at h
    obtain ⟨u, hu, h⟩ := Option.bind_eq_some_iff.1 h
    exact .cons (.inl hu) (ih h)

theorem Steps.reg_eq (h : s.Steps i t) {r : Reg} (hr : r ∉ i.sets) : t.reg r = s.reg r := by
  rcases h with h | ⟨-, h⟩
  · exact reg_of_exec h hr
  · exact h r hr

theorem Traverses.reg_eq (h : s.Traverses code t) (hsteady : ∀ i ∈ code, i.Steady) :
    ∀ r ∈ pointers, t.reg r = s.reg r := by
  induction h with
  | nil s => exact fun _ _ => rfl
  | cons hstep _ ih =>
    obtain ⟨hi, hcode⟩ := List.forall_mem_cons.1 hsteady
    intro r hr
    rw [ih hcode r hr]
    exact hstep.reg_eq fun hmem => hi r hmem hr

theorem call_not_mem (h : s.run code = some t) (label : String) : .call label ∉ code := by
  induction code generalizing s with
  | nil => exact List.not_mem_nil
  | cons i code ih =>
    rw [run_cons] at h
    obtain ⟨u, hu, h⟩ := Option.bind_eq_some_iff.1 h
    intro hmem
    rcases List.mem_cons.1 hmem with rfl | hmem
    · cases hu
    · exact ih h hmem

theorem exists_run_of_exec (h : ∀ i ∈ code, ∀ s : State, ∃ t, s.exec i = some t) (s : State) :
    ∃ t, s.run code = some t := by
  induction code generalizing s with
  | nil => exact ⟨s, rfl⟩
  | cons i code ih =>
    obtain ⟨hi, hcode⟩ := List.forall_mem_cons.1 h
    obtain ⟨t, hexec⟩ := hi s
    obtain ⟨u, hrun⟩ := ih hcode t
    exact ⟨u, run_append (run_single hexec) hrun⟩

end State

end Machine

/-! ## Steady code -/

/-- Straight code is steady if no pointer is among the values that it touches. -/
theorem Codegen.TouchesAll.steady {values : List Value} {code : List Instr}
    (h : TouchesAll values code) (hvalues : ∀ v ∈ values, ∀ r ∈ v.regs, r ∉ pointers) :
    ∀ i ∈ code, i.Steady := by
  intro i hi r hr
  have hworking : ∀ r ∈ working, r ∉ pointers := by decide
  rcases (h i hi).sets r hr with hr | ⟨v, hv, hr⟩
  · exact hworking r hr
  · exact hvalues v hv r hr

theorem Placement.Laid.not_mem_pointers {p : Placement} {table : SymbolTable} {f : Function}
    (hp : p.Laid table f) {v : Variable} {r : Reg} (h : p.locations[v]? = some (.reg r)) :
    r ∉ pointers := by
  have hargument : ∀ r ∈ argumentRegs, r ∉ pointers := by decide
  have hallocatable : ∀ r ∈ allocatableRegs, r ∉ pointers := by decide
  by_cases hv : v ∈ f.parameters
  · obtain ⟨arrivals, harrivals, hlocations⟩ := hp.arrives
    obtain ⟨location, hmem, hlocation⟩ := hlocations v hv
    cases h.symm.trans hlocation
    exact hargument r ((arrive_of_parameterLocations harrivals).among hmem)
  · exact hallocatable r (hp.regs.1 (hp.keeps hv h)).1

namespace Codegen.Context

variable {context : Context} {i : Instruction} {live : VariableSet} {code : List Instr}
  {result : Option Variable} {operands : List Flow.Operand} {c : CallCode}

section

variable (hp : context.placement.Laid context.table context.function)

include hp

theorem not_mem_pointers_of_placeOf {v : Variable} {place : Place}
    (h : context.placeOf v = .ok place) : ∀ r ∈ place.regs, r ∉ pointers := by
  obtain ⟨location, hlocate, h⟩ := bind_eq_ok.1 h
  have hlocation : context.placement.locations[v]? = some location := by
    unfold Placement.locate at hlocate
    split at hlocate
    · cases hlocate
      assumption
    · cases hlocate
  cases location with
  | reg r =>
    cases h
    exact List.forall_mem_singleton.2 (hp.not_mem_pointers hlocation)
  | xmm x =>
    cases h
    exact List.forall_mem_nil _
  | stack offset =>
    obtain ⟨ty, -, h⟩ := bind_eq_ok.1 h
    cases h
    exact List.forall_mem_nil _

theorem Straight.steady {lines : List Line} (h : context.Straight i lines) {instr : Instr}
    (hinstr : .instr instr ∈ lines) : instr.Steady := by
  obtain ⟨values, code, rfl, htouches, hvalues⟩ := h
  obtain ⟨_, hmem, heq⟩ := List.mem_map.1 hinstr
  cases heq
  refine htouches.steady (fun v hv => ?_) _ hmem
  rcases hvalues v hv with ⟨_, place, hplace, rfl⟩ | ⟨operand, -, hvalue⟩
  · exact not_mem_pointers_of_placeOf hp hplace
  · cases operand with
    | var v =>
      obtain ⟨place, hplace, hvalue⟩ := bind_eq_ok.1 hvalue
      cases hvalue
      exact not_mem_pointers_of_placeOf hp hplace
    | constant c =>
      rw [valueOf] at hvalue
      split at hvalue
      · cases hvalue
        exact List.forall_mem_nil _
      · cases hvalue
        exact List.forall_mem_nil _

theorem steady_restoreRegisters : ∀ i ∈ context.restoreRegisters, i.Steady := by
  refine context.touchesAll_restoreRegisters.steady (List.forall_mem_map.2 fun slot hslot => ?_)
  obtain ⟨-, v, hv⟩ := hp.regs.1 (List.mem_map_of_mem hslot)
  exact List.forall_mem_singleton.2 (hp.not_mem_pointers hv)

theorem steady_branch {condition : Flow.Operand} {label : String}
    (h : context.branch condition label = .ok code) : ∀ i ∈ code, i.Steady := by
  cases condition with
  | constant c =>
    cases h
    split
    · exact List.forall_mem_nil _
    · exact List.forall_mem_singleton.2 (List.forall_mem_nil _)
  | var v =>
    obtain ⟨place, hplace, h⟩ := bind_eq_ok.1 h
    cases h
    refine List.forall_mem_cons.2 ⟨?_, List.forall_mem_singleton.2 (List.forall_mem_nil _)⟩
    intro r hr
    rw [Instr.sets, regs_operand] at hr
    exact not_mem_pointers_of_placeOf hp hplace r hr

/-- The code of an instruction other than a call leaves the pointers alone, but for what
leaves the frame. -/
theorem steady_select {lines : List Line} (h : context.select live i = .ok lines)
    (hcall : ∀ result callee operands, i ≠ .call result callee operands) {instr : Instr}
    (hinstr : .instr instr ∈ lines) :
    instr.Steady ∨ .instr instr ∈ leaveFrame ∧ ∃ value, i = .ret value := by
  have hcode : ∀ {code : List Instr}, (∀ i ∈ code, i.Steady) →
      .instr instr ∈ code.map Line.instr → instr.Steady := by
    intro code hsteady hmem
    obtain ⟨_, hmem, heq⟩ := List.mem_map.1 hmem
    cases heq
    exact hsteady _ hmem
  cases i with
  | label block =>
    obtain ⟨name, -, h⟩ := bind_eq_ok.1 h
    cases h
    cases List.mem_singleton.1 hinstr
  | goto target =>
    obtain ⟨name, -, h⟩ := bind_eq_ok.1 h
    cases h
    cases List.mem_singleton.1 hinstr
    exact .inl (List.forall_mem_nil _)
  | branch condition target =>
    obtain ⟨name, -, h⟩ := bind_eq_ok.1 h
    obtain ⟨code, hbranch, h⟩ := bind_eq_ok.1 h
    cases h
    exact .inl (hcode (steady_branch hp hbranch) hinstr)
  | call result callee operands => exact absurd rfl (hcall result callee operands)
  | ret value =>
    obtain ⟨load, hload, h⟩ := bind_eq_ok.1 h
    cases h
    rcases List.mem_append.1 hinstr with hmem | hmem
    · rw [List.map_append] at hmem
      rcases List.mem_append.1 hmem with hmem | hmem
      · exact .inl ((straight_returnValue hload).steady hp hmem)
      · exact .inl (hcode (steady_restoreRegisters hp) hmem)
    · exact .inr ⟨hmem, value, rfl⟩
  | binary result lhs op rhs operandTy resultTy =>
    exact .inl ((straight_binary h).steady hp hinstr)
  | cast result source sourceTy targetTy => exact .inl ((straight_cast h).steady hp hinstr)
  | alloca result ty =>
    cases h
    cases hinstr
  | store destination value ty => exact .inl ((straight_store h).steady hp hinstr)
  | load result source ty => exact .inl ((straight_load h).steady hp hinstr)

end

end Codegen.Context

/-! ## Behind a call instruction -/

namespace Machine.State

variable {place : Place} {ty : Ty}

theorem exists_run_storeInteger (hsuits : (Value.place place).Suits ty)
    (hty : ty.valueClass = .general) (r : Reg) (s : State) :
    ∃ t, s.run (storeInteger place r ty) = some t := by
  have hsource : s.source (.ofTy ty) (.reg r (.ofTy ty)) = some ((s.reg r).setWidth _) := if_pos rfl
  unfold storeInteger
  split
  · exact ⟨s, rfl⟩
  · cases place with
    | reg r' => exact ⟨_, run_single (congrArg (Option.map _) hsource)⟩
    | xmm x => cases hty.symm.trans hsuits
    | mem size a =>
      cases hsuits
      exact ⟨_, run_single (congrArg (Option.map _) hsource)⟩

theorem exists_run_moveFromXmm {width : FloatWidth}
    (hsuits : (Value.place place).Suits (.float width)) (x : Xmm) (s : State) :
    ∃ t, s.run (move place (.place (.xmm x)) (.float width)) = some t := by
  unfold move
  split
  · exact ⟨s, rfl⟩
  · cases place with
    | reg r => cases hsuits
    | xmm y => exact ⟨_, run_single rfl⟩
    | mem size a =>
      cases hsuits
      exact ⟨_, run_single (if_pos rfl)⟩

end Machine.State

namespace Codegen.Context

open Machine.State

variable {context : Context} {live : VariableSet} {code : List Instr}
  {result : Option Variable} {operands : List Flow.Operand} {c : CallCode}

theorem exists_run_takeResult (hlocates : ∀ v ∈ result, context.placement.Locates context.table v)
    (h : context.takeResult result = .ok code) (s : State) : ∃ t, s.run code = some t := by
  cases result with
  | none =>
    cases h
    exact ⟨s, rfl⟩
  | some v =>
    obtain ⟨ty, hty, h⟩ := bind_eq_ok.1 h
    obtain ⟨place, hplace, h⟩ := bind_eq_ok.1 h
    obtain ⟨place', hplace', hsuits⟩ :=
      exists_placeOf (hlocates v rfl) (SymbolTable.typeOf_eq_ok.1 hty)
    cases hplace.symm.trans hplace'
    cases ty with
    | float width =>
      cases h
      exact exists_run_moveFromXmm hsuits .xmm0 s
    | int width signed =>
      cases h
      exact exists_run_storeInteger hsuits rfl .rax s
    | bool =>
      cases h
      exact exists_run_storeInteger hsuits rfl .rax s

theorem steady_unpark (x : Xmm) (offset : Int) : (unpark x offset).Steady :=
  List.forall_mem_nil _

/-- The code behind a call instruction moves the stack pointer up by the bytes that the
code in front of it has taken. -/
theorem Calls.exists_run_aftermath (h : context.Calls result operands live c)
    (hp : context.placement.Laid context.table context.function)
    (hlocates : ∀ v ∈ result, context.placement.Locates context.table v) (s : State) :
    ∃ t, s.run c.aftermath = some t ∧ t.reg .rsp = s.reg .rsp + BitVec.ofNat 64 c.bytes ∧
      t.reg .rbp = s.reg .rbp := by
  obtain ⟨s₁, hadjust, hrsp, hadjusted⟩ := exists_run_adjust (exec_add · .rsp ·) (by simp) c.bytes s
  obtain ⟨s₂, htaking⟩ := exists_run_takeResult hlocates h.taking s₁
  have hunparks : ∃ t, s₂.run (c.saved.map fun slot => unpark slot.1 slot.2) = some t :=
    exists_run_of_exec (List.forall_mem_map.2 fun _ _ _ => ⟨_, rfl⟩) s₂
  obtain ⟨t, hunparks⟩ := hunparks
  have htaken := (traverses_of_run htaking).reg_eq fun i hi =>
    (straight_takeResult (i := .call result 0 operands) h.taking).steady hp (List.mem_map_of_mem hi)
  have hunparked := (traverses_of_run hunparks).reg_eq
    (List.forall_mem_map.2 fun slot _ => steady_unpark slot.1 slot.2)
  refine ⟨t, run_append (run_append hadjust htaking) hunparks, ?_, ?_⟩
  · rw [hunparked _ (by decide), htaken _ (by decide), hrsp]
  · rw [hunparked _ (by decide), htaken _ (by decide), hadjusted.reg _ (by decide)]

end Codegen.Context

/-! ## Entering a frame -/

def Machine.Line.instr? : Line → Option Instr
  | .instr i => some i
  | _ => none

namespace Codegen.Context

open Machine.State

theorem instrs_prologue (context : Context) (debugInfo : Bool) :
    (context.prologue debugInfo).filterMap Line.instr? =
      .push (full .rbp) :: .mov (full .rbp) (full .rsp) ::
        (adjust .sub context.placement.frameSize ++ context.saveRegisters) := by
  have hcode : ∀ code : List Instr, (code.map Line.instr).filterMap Line.instr? = code := by
    intro code
    rw [List.filterMap_map]
    exact List.filterMap_some
  have hcomments : ∀ (l : List (Variable × Location)) (g : Variable × Location → String),
      (l.map fun p => Line.comment (g p)).filterMap Line.instr? = [] := by
    intro l g
    rw [List.filterMap_map]
    exact List.filterMap_eq_nil_iff.2 fun _ _ => rfl
  have hframe : (enterFrame context.placement.frameSize).filterMap Line.instr? =
      .push (full .rbp) :: .mov (full .rbp) (full .rsp) ::
        adjust .sub context.placement.frameSize := by
    unfold enterFrame adjust
    split <;> rfl
  unfold prologue
  rw [List.filterMap_append, List.filterMap_append, List.filterMap_append, hframe, hcode]
  cases debugInfo with
  | false => rfl
  | true =>
    rw [if_pos rfl, hcomments]
    rfl

theorem steady_saveRegisters (context : Context) : ∀ i ∈ context.saveRegisters, i.Steady := by
  intro i hi
  obtain ⟨slot, -, rfl⟩ := List.mem_map.1 hi
  exact List.forall_mem_nil _

theorem exists_run_prologue (context : Context) (debugInfo : Bool) (s : State) :
    ∃ t, s.run ((context.prologue debugInfo).filterMap Line.instr?) = some t ∧
      t.reg .rbp = s.reg .rsp - 8 ∧
      t.reg .rsp = t.reg .rbp - BitVec.ofNat 64 context.placement.frameSize := by
  obtain ⟨s₁, hpush, hrsp, -⟩ := s.exists_exec_push .rbp
  have hmov : s₁.exec (.mov (full .rbp) (full .rsp)) = some (s₁.setReg .rbp (s₁.reg .rsp)) := by
    change some (s₁.setReg .rbp (((s₁.reg .rsp).setWidth Size.qword.bits).setWidth 64)) = _
    rw [setWidth_qword]
  obtain ⟨s₂, hadjust, hrsp₂, hadjusted⟩ := exists_run_adjust (exec_sub · .rsp ·) (by simp)
    context.placement.frameSize (s₁.setReg .rbp (s₁.reg .rsp))
  have hsaves : ∃ t, s₂.run context.saveRegisters = some t :=
    exists_run_of_exec (List.forall_mem_map.2 fun _ _ _ => ⟨_, rfl⟩) s₂
  obtain ⟨t, hsaves⟩ := hsaves
  have hsaved := (traverses_of_run hsaves).reg_eq context.steady_saveRegisters
  have hrbp : t.reg .rbp = s₁.reg .rsp := by
    rw [hsaved _ (by decide), hadjusted.reg _ (by decide), reg_setReg_self]
  refine ⟨t, ?_, ?_, ?_⟩
  · rw [instrs_prologue, run_cons, hpush, Option.bind_some, run_cons, hmov, Option.bind_some]
    exact run_append hadjust hsaves
  · rw [hrbp, hrsp]
  · rw [hsaved _ (by decide), hrsp₂, hrbp]
    rfl

end Codegen.Context

end Cinder
