import Cinder.Codegen.Program
import Cinder.Proofs.Codegen.Placed

/-!
# Code for instructions

Code can be generated for every typed instruction whose variables have locations of
their register files: integers are never read from vector registers, and no conversion
is asked for that the machine does not have.
-/

namespace Cinder.Codegen

open Machine Cinder.Flow

theorem nodup_eraseDups {α : Type} [BEq α] [LawfulBEq α] (l : List α) : l.eraseDups.Nodup := by
  induction h : l.length using Nat.strongRecOn generalizing l with
  | _ n ih =>
    cases l with
    | nil => exact List.nodup_nil
    | cons a l =>
      have hlength : (l.filter fun b => !b == a).length < n := by
        rw [← h]
        exact Nat.lt_succ_of_le (List.length_filter_le ..)
      rw [List.eraseDups_cons, List.nodup_cons, List.mem_eraseDups]
      refine ⟨?_, ih _ hlength _ rfl⟩
      simp

/-! ## Values -/

def Value.Suits (ty : Ty) : Value → Prop
  | .imm _ => ty.valueClass = .general
  | .place (.reg _) => ty.valueClass = .general
  | .place (.xmm _) => ty.valueClass = .float
  | .place (.mem size _) => size = .ofTy ty

theorem Value.suits_ofLocation {location : Location} {ty : Ty}
    (h : location.Holds ty.valueClass) : (Value.place (.ofLocation ty location)).Suits ty := by
  cases location with
  | reg r => exact h
  | xmm x => exact h
  | stack offset => rfl

variable {result : Place} {value lhs rhs : Value} {ty operandTy resultTy : Ty}

theorem exists_loadInteger (r : Reg) (h : value.Suits ty) (hty : ty.valueClass = .general) :
    ∃ code, loadInteger r value ty = .ok code := by
  unfold loadInteger
  split
  · exact ⟨_, rfl⟩
  · cases hty.symm.trans h
  · split
    · exact ⟨_, rfl⟩
    · exact ⟨_, rfl⟩

/-! ## Operations -/

theorem exists_integerBinary (op : Operator) (hty : operandTy.valueClass = .general)
    (hlhs : lhs.Suits operandTy) (hrhs : rhs.Suits operandTy) :
    ∃ code, integerBinary result lhs op rhs operandTy resultTy = .ok code := by
  obtain ⟨lhsScratch, hlhsScratch⟩ := exists_loadInteger scratch hlhs hty
  obtain ⟨rhsRax, hrhsRax⟩ := exists_loadInteger .rax hrhs hty
  obtain ⟨lhsRax, hlhsRax⟩ := exists_loadInteger .rax hlhs hty
  obtain ⟨rhsScratch, hrhsScratch⟩ := exists_loadInteger scratch hrhs hty
  unfold integerBinary
  rw [hlhsScratch, hrhsRax, hlhsRax, hrhsScratch]
  cases op with
  | _ => exact ⟨_, rfl⟩

theorem exists_binary (op : Operator) (hlhs : lhs.Suits operandTy) (hrhs : rhs.Suits operandTy) :
    ∃ code, binary result lhs op rhs operandTy resultTy = .ok code := by
  cases operandTy with
  | float width => exact ⟨_, rfl⟩
  | int width signed => exact exists_integerBinary op rfl hlhs hrhs
  | bool => exact exists_integerBinary op rfl hlhs hrhs

/-- Integers and booleans are converted through the scratch register. -/
theorem exists_cast_of_general {sourceTy targetTy : Ty} (hty : sourceTy.valueClass = .general)
    (h : value.Suits sourceTy) (hne : sourceTy ≠ targetTy)
    (hconverts : sourceTy.converts targetTy = true) :
    ∃ code, cast result value sourceTy targetTy = .ok code := by
  obtain ⟨load, hload⟩ := exists_loadInteger scratch h hty
  cases targetTy with
  | bool =>
    cases sourceTy with
    | bool => exact absurd rfl hne
    | int => exact ⟨_, bind_eq_ok.2 ⟨load, hload, rfl⟩⟩
    | float => cases hty
  | int =>
    cases sourceTy with
    | bool => exact ⟨_, bind_eq_ok.2 ⟨load, hload, rfl⟩⟩
    | int => exact ⟨_, bind_eq_ok.2 ⟨load, hload, rfl⟩⟩
    | float => cases hty
  | float width =>
    have hwide : sourceTy ≠ Ty.u64 := by
      rintro rfl
      cases hconverts
    cases sourceTy with
    | bool => exact ⟨_, bind_eq_ok.2 ⟨load, hload, rfl⟩⟩
    | int =>
      simp only [cast, if_neg hwide]
      exact ⟨_, bind_eq_ok.2 ⟨load, hload, rfl⟩⟩
    | float => cases hty

theorem exists_cast {sourceTy targetTy : Ty} (h : value.Suits sourceTy) (hne : sourceTy ≠ targetTy)
    (hconverts : sourceTy.converts targetTy = true) :
    ∃ code, cast result value sourceTy targetTy = .ok code := by
  cases sourceTy with
  | bool => exact exists_cast_of_general rfl h hne hconverts
  | int => exact exists_cast_of_general rfl h hne hconverts
  | float width =>
    cases targetTy with
    | bool => exact ⟨_, rfl⟩
    | int width' signed =>
      have hwide : Ty.int width' signed ≠ Ty.u64 := by
        intro heq
        rw [heq] at hconverts
        cases hconverts
      simp only [cast, if_neg hwide]
      exact ⟨_, rfl⟩
    | float width' =>
      simp only [cast]
      split
      · exact ⟨_, rfl⟩
      · exact ⟨_, rfl⟩

namespace Context

variable {context : Context} {v : Variable} {location : Location} {operand : Flow.Operand}

theorem placeOf_eq_ok (hlocation : context.placement.locations[v]? = some location)
    (hty : context.table.type? v.symbol = some ty) :
    context.placeOf v = .ok (.ofLocation ty location) := by
  have hlocate : context.placement.locate context.table v = .ok location := by
    rw [Placement.locate, hlocation]
  have htype : v.typeIn context.table = .ok ty := SymbolTable.typeOf_eq_ok.2 hty
  rw [placeOf, hlocate, bind_ok]
  cases location with
  | reg r => rfl
  | xmm x => rfl
  | stack offset => exact bind_eq_ok.2 ⟨ty, htype, rfl⟩

theorem exists_placeOf (h : context.placement.Locates context.table v)
    (hty : context.table.type? v.symbol = some ty) :
    ∃ place, context.placeOf v = .ok place ∧ (Value.place place).Suits ty := by
  obtain ⟨location, ty', hlocation, hty', hholds⟩ := h
  cases hty.symm.trans hty'
  exact ⟨_, placeOf_eq_ok hlocation hty, Value.suits_ofLocation hholds⟩

theorem exists_valueOf (h : ∀ v, operand = .var v → context.placement.Locates context.table v)
    (hty : operand.HasType context.table ty) :
    ∃ value, context.valueOf operand = .ok value ∧ value.Suits ty := by
  cases operand with
  | var v =>
    obtain ⟨place, hplace, hsuits⟩ := exists_placeOf (h v rfl) hty
    exact ⟨.place place, bind_eq_ok.2 ⟨place, hplace, rfl⟩, hsuits⟩
  | constant c =>
    cases hty
    rw [valueOf]
    split
    · rename_i value hvalue
      refine ⟨_, rfl, ?_⟩
      cases c with
      | float => cases hvalue
      | _ => rfl
    · exact ⟨_, rfl, rfl⟩

theorem typeOf_eq_ok (h : operand.HasType context.table ty) : context.typeOf operand = .ok ty := by
  cases operand with
  | var v => exact SymbolTable.typeOf_eq_ok.2 h
  | constant c =>
    cases h
    rfl

/-! ## Calls -/

/-- The registers that a call saves are those of the variables that are needed
behind it, each once. -/
structure SavesFor (context : Context) (result : Option Variable) (live : VariableSet)
    (saved : List (Xmm × Int)) : Prop where
  nodup : (saved.map Prod.fst).Nodup
  mem_iff : ∀ {x offset}, (x, offset) ∈ saved ↔
    context.placement.savedXmms.lookup x = some offset ∧
      ∃ v ∈ live, some v ≠ result ∧ context.placement.locations[v]? = some (.xmm x)

def xmmsOf (locations : List Location) : List Xmm :=
  locations.filterMap fun
    | .xmm x => some x
    | _ => none

theorem mem_xmmsOf {locations : List Location} {x : Xmm} :
    x ∈ xmmsOf locations ↔ .xmm x ∈ locations := by
  rw [xmmsOf, List.mem_filterMap]
  constructor
  · rintro ⟨location, hmem, h⟩
    cases location with
    | xmm y =>
      cases h
      exact hmem
    | _ => cases h
  · intro h
    exact ⟨_, h, rfl⟩

def saveSlot (context : Context) (x : Xmm) : Except Fault (Xmm × Int) :=
  match context.placement.savedXmms.lookup x with
  | some offset => return (x, offset)
  | none => throw .outOfRange

theorem saveSlot_eq_ok {x : Xmm} {slot : Xmm × Int} :
    context.saveSlot x = .ok slot ↔
      slot.1 = x ∧ context.placement.savedXmms.lookup x = some slot.2 := by
  obtain ⟨y, offset⟩ := slot
  unfold saveSlot
  split
  · rename_i offset' h
    rw [h]
    constructor
    · intro heq
      cases heq
      exact ⟨rfl, rfl⟩
    · rintro ⟨rfl, heq⟩
      cases heq
      rfl
  · rename_i h
    rw [h]
    constructor
    · intro heq
      cases heq
    · rintro ⟨-, heq⟩
      cases heq

theorem savedAcross_eq_ok {result : Option Variable} {live : VariableSet}
    {saved : List (Xmm × Int)} :
    context.savedAcross result live = .ok saved ↔ ∃ locations,
      (live.toList.filter fun v => some v ≠ result).mapM
        (context.placement.locate context.table) = .ok locations ∧
      (xmmsOf locations).eraseDups.mapM context.saveSlot = .ok saved :=
  bind_eq_ok

theorem exists_savedAcross {result : Option Variable} {live : VariableSet}
    (hlocated : ∀ v ∈ live, ∃ location, context.placement.locations[v]? = some location)
    (hsaved : ∀ v ∈ live, ∀ x, some v ≠ result →
      context.placement.locations[v]? = some (.xmm x) →
      ∃ offset, context.placement.savedXmms.lookup x = some offset) :
    ∃ saved, context.savedAcross result live = .ok saved ∧ context.SavesFor result live saved := by
  have hothers : ∀ {v}, v ∈ live.toList.filter (fun v => some v ≠ result) ↔
      v ∈ live ∧ some v ≠ result := by
    intro v
    rw [List.mem_filter, Std.ExtTreeSet.mem_toList, decide_eq_true_iff]
  obtain ⟨locations, hlocations, hforall⟩ := exists_mapM
    (l := live.toList.filter fun v => some v ≠ result)
    (g := context.placement.locate context.table)
    (P := fun v location => context.placement.locations[v]? = some location) (by
      intro v hv
      obtain ⟨location, hlocation⟩ := hlocated v (hothers.1 hv).1
      exact ⟨location, by rw [Placement.locate, hlocation], hlocation⟩)
  have hxmms : ∀ {x}, x ∈ (xmmsOf locations).eraseDups ↔
      ∃ v ∈ live, some v ≠ result ∧ context.placement.locations[v]? = some (.xmm x) := by
    intro x
    rw [List.mem_eraseDups, mem_xmmsOf]
    constructor
    · intro hx
      obtain ⟨v, hv, hlocation⟩ := forall₂_exists_left hforall hx
      exact ⟨v, (hothers.1 hv).1, (hothers.1 hv).2, hlocation⟩
    · rintro ⟨v, hv, hne, hlocation⟩
      obtain ⟨location, hmem, h⟩ := forall₂_exists_left hforall.flip (hothers.2 ⟨hv, hne⟩)
      cases hlocation.symm.trans h
      exact hmem
  obtain ⟨saved, hmap, hslots⟩ := exists_mapM (l := (xmmsOf locations).eraseDups)
    (g := context.saveSlot)
    (P := fun x slot => slot.1 = x ∧ context.placement.savedXmms.lookup x = some slot.2) (by
      intro x hx
      obtain ⟨v, hv, hne, hlocation⟩ := hxmms.1 hx
      obtain ⟨offset, hoffset⟩ := hsaved v hv x hne hlocation
      exact ⟨(x, offset), saveSlot_eq_ok.2 ⟨rfl, hoffset⟩, rfl, hoffset⟩)
  have hkeys : saved.map Prod.fst = (xmmsOf locations).eraseDups := by
    rw [← List.map_id (xmmsOf locations).eraseDups]
    exact (map_eq_map_of_forall₂ (hslots.imp fun x slot h => h.1.symm)).symm
  refine ⟨saved, savedAcross_eq_ok.2 ⟨locations, hlocations, hmap⟩, ?_, ?_⟩
  · rw [hkeys]
    exact nodup_eraseDups _
  · intro x offset
    rw [← hxmms, ← hkeys]
    constructor
    · intro hmem
      obtain ⟨_, -, rfl, hlookup⟩ := forall₂_exists_left hslots hmem
      exact ⟨hlookup, List.mem_map_of_mem hmem⟩
    · rintro ⟨hlookup, hkey⟩
      obtain ⟨slot, hmem, rfl⟩ := List.mem_map.1 hkey
      obtain ⟨_, -, rfl, hlookup'⟩ := forall₂_exists_left hslots hmem
      cases hlookup.symm.trans hlookup'
      exact hmem

structure Passes (context : Context) (operands : List Flow.Operand) (arguments : List Argument) :
    Prop where
  slots : arguments.map Argument.slot =
    ArgumentSlot.ofClasses (arguments.map fun argument => argument.ty.valueClass)
  operands : List.Forall₂ (fun operand argument => context.valueOf operand = .ok argument.value ∧
    context.typeOf operand = .ok argument.ty) operands arguments

theorem passes_of_arguments {operands : List Flow.Operand} {arguments : List Argument}
    (h : context.arguments operands = .ok arguments) : context.Passes operands arguments := by
  obtain ⟨typed, htyped, h⟩ := bind_eq_ok.1 h
  cases h
  generalize hslots : ArgumentSlot.ofClasses (typed.map fun p => p.2.valueClass) = slots
  have hlength : slots.length = typed.length := by
    rw [← hslots, ArgumentSlot.ofClasses, ArgumentSlot.length_assign, List.length_map]
  have hvalues : ((slots.zip typed).map fun p => Argument.mk p.1 p.2.1 p.2.2).map
      (fun argument => (argument.value, argument.ty)) = typed := by
    rw [List.map_map]
    exact List.map_snd_zip (Nat.le_of_eq hlength.symm)
  constructor
  · have htypes := congrArg (List.map fun p => p.2.valueClass) hvalues
    rw [List.map_map] at htypes
    rw [← htypes] at hslots
    refine Eq.trans ?_ hslots.symm
    rw [List.map_map]
    exact List.map_fst_zip (Nat.le_of_eq hlength)
  · have hforall := forall₂_of_mapM htyped
    rw [← hvalues, List.forall₂_map_right_iff] at hforall
    refine hforall.imp fun operand argument h => ?_
    obtain ⟨ty, hty, h⟩ := bind_eq_ok.1 h
    obtain ⟨value, hvalue, h⟩ := bind_eq_ok.1 h
    cases h
    exact ⟨hvalue, hty⟩

/-- An argument is where values of its type are kept, and is passed where they are
passed. -/
structure Argument.Suits (argument : Argument) : Prop where
  value : argument.value.Suits argument.ty
  slot : argument.slot.location.Holds argument.ty.valueClass

theorem exists_arguments {operands : List Flow.Operand}
    (h : ∀ operand ∈ operands, ∃ ty, operand.HasType context.table ty ∧
      ∀ v, operand = .var v → context.placement.Locates context.table v) :
    ∃ arguments, context.arguments operands = .ok arguments ∧ ∀ a ∈ arguments, a.Suits := by
  obtain ⟨typed, htyped, -⟩ := exists_mapM (l := operands) (g := fun operand => do
      let ty ← context.typeOf operand
      return (← context.valueOf operand, ty))
    (P := fun _ _ => True) (by
      intro operand hoperand
      obtain ⟨ty, hty, hlocates⟩ := h operand hoperand
      obtain ⟨value, hvalue, -⟩ := exists_valueOf hlocates hty
      refine ⟨(value, ty), ?_, trivial⟩
      rw [typeOf_eq_ok hty, hvalue]
      rfl)
  have harguments : ∃ arguments, context.arguments operands = .ok arguments :=
    ⟨_, bind_eq_ok.2 ⟨typed, htyped, rfl⟩⟩
  obtain ⟨arguments, harguments⟩ := harguments
  obtain ⟨hslots, hoperands⟩ := passes_of_arguments harguments
  refine ⟨arguments, harguments, fun a ha => ⟨?_, ?_⟩⟩
  · obtain ⟨operand, hmem, hvalue, htype⟩ := forall₂_exists_left hoperands ha
    obtain ⟨ty, hty, hlocates⟩ := h operand hmem
    obtain ⟨value, hvalue', hsuits⟩ := exists_valueOf hlocates hty
    cases hvalue.symm.trans hvalue'
    cases htype.symm.trans (typeOf_eq_ok hty)
    exact hsuits
  · have hholds := ArgumentSlot.forall₂_assign argumentRegs argumentXmms 0
      (arguments.map fun argument => argument.ty.valueClass)
    rw [← ArgumentSlot.ofClasses, ← hslots, List.forall₂_map_left_iff, List.forall₂_map_right_iff,
      List.forall₂_same] at hholds
    exact hholds a ha

theorem Argument.Suits.exists_push {argument : Argument} (h : argument.Suits) :
    ∃ code, pushArgument argument.value argument.ty = .ok code := by
  obtain ⟨slot, value, ty⟩ := argument
  cases ty with
  | float width => exact ⟨_, rfl⟩
  | int width signed =>
    obtain ⟨load, hload⟩ := exists_loadInteger scratch h.value rfl
    exact ⟨_, bind_eq_ok.2 ⟨load, hload, rfl⟩⟩
  | bool =>
    obtain ⟨load, hload⟩ := exists_loadInteger scratch h.value rfl
    exact ⟨_, bind_eq_ok.2 ⟨load, hload, rfl⟩⟩

theorem Argument.Suits.exists_load {argument : Argument} (h : argument.Suits) :
    ∃ code, argument.load = .ok code := by
  obtain ⟨slot, value, ty⟩ := argument
  cases slot with
  | reg r => exact exists_loadInteger r h.value h.slot
  | xmm x => exact ⟨_, rfl⟩
  | stack index => exact ⟨_, rfl⟩

theorem exists_takeResult {result : Option Variable}
    (h : ∀ v ∈ result, context.placement.Locates context.table v) :
    ∃ code, context.takeResult result = .ok code := by
  cases result with
  | none => exact ⟨_, rfl⟩
  | some v =>
    obtain ⟨location, ty, hlocation, hty, -⟩ := h v rfl
    have htype : v.typeIn context.table = .ok ty := SymbolTable.typeOf_eq_ok.2 hty
    rw [takeResult, htype, bind_ok, placeOf_eq_ok hlocation hty, bind_ok]
    cases ty with
    | _ => exact ⟨_, rfl⟩

def adjust (alu : Alu) (bytes : Nat) : List Instr :=
  if bytes = 0 then [] else [.alu alu (full .rsp) (immediate bytes)]

/-- The parts of the code of a call: the registers it saves, its arguments, how they are
pushed and loaded, and how the result is taken over. -/
structure CallCode where
  saved : List (Xmm × Int)
  arguments : List Argument
  pushes : List (List Instr)
  loads : List (List Instr)
  taking : List Instr

namespace CallCode

variable (c : CallCode)

def onStack : List Argument :=
  c.arguments.filter Argument.isOnStack

/-- The bytes between the stack pointer of the caller and the stack arguments. -/
def gap : Nat :=
  padding c.onStack.length

def code (label : String) : List Instr :=
  c.saved.map (fun slot => park slot.1 slot.2) ++ adjust .sub c.gap
    ++ c.pushes.flatten ++ c.loads.flatten ++ [Instr.call label]
    ++ adjust .add (8 * c.onStack.length + c.gap) ++ c.taking
    ++ c.saved.map fun slot => unpark slot.1 slot.2

def approach : List Instr :=
  c.saved.map (fun slot => park slot.1 slot.2) ++ adjust .sub c.gap
    ++ c.pushes.flatten ++ c.loads.flatten

def aftermath : List Instr :=
  adjust .add (8 * c.onStack.length + c.gap) ++ c.taking
    ++ c.saved.map fun slot => unpark slot.1 slot.2

theorem code_eq (label : String) : c.code label = c.approach ++ .call label :: c.aftermath := by
  simp only [code, approach, aftermath, List.append_assoc, List.cons_append, List.nil_append]

end CallCode

/-- The parts of the code of a call come from what is called and what is live behind
it. -/
structure Calls (context : Context) (result : Option Variable) (operands : List Flow.Operand)
    (live : VariableSet) (c : CallCode) : Prop where
  saved : context.savedAcross result live = .ok c.saved
  arguments : context.arguments operands = .ok c.arguments
  pushes : c.onStack.reverse.mapM (fun argument => pushArgument argument.value argument.ty) =
    .ok c.pushes
  loads : c.arguments.mapM Argument.load = .ok c.loads
  taking : context.takeResult result = .ok c.taking

theorem call_eq_ok {result : Option Variable} {callee : SymbolId} {operands : List Flow.Operand}
    {live : VariableSet} {code : List Instr} :
    context.call result callee operands live = .ok code ↔
      ∃ c, context.Calls result operands live c ∧
        code = c.code (symbolName (context.table.nameOf callee)) := by
  constructor
  · intro h
    obtain ⟨saved, hsaved, h⟩ := bind_eq_ok.1 h
    obtain ⟨arguments, harguments, h⟩ := bind_eq_ok.1 h
    obtain ⟨pushes, hpushes, h⟩ := bind_eq_ok.1 h
    obtain ⟨loads, hloads, h⟩ := bind_eq_ok.1 h
    obtain ⟨taking, htaking, h⟩ := bind_eq_ok.1 h
    exact ⟨⟨saved, arguments, pushes, loads, taking⟩,
      ⟨hsaved, harguments, hpushes, hloads, htaking⟩, (Except.ok.inj h).symm⟩
  · rintro ⟨c, h, rfl⟩
    exact bind_eq_ok.2 ⟨_, h.saved, bind_eq_ok.2 ⟨_, h.arguments, bind_eq_ok.2 ⟨_, h.pushes,
      bind_eq_ok.2 ⟨_, h.loads, bind_eq_ok.2 ⟨_, h.taking, rfl⟩⟩⟩⟩⟩

/-! ## Instructions -/

structure Covers (context : Context) (i : Instruction) (live : VariableSet) : Prop where
  typed : i.Typed context.table
  located : ∀ {v}, v ∈ i.uses ∨ i.definition = some v ∨ v ∈ live →
    context.placement.Locates context.table v
  saved : ∀ {v x}, i.overwrites = true → v ∈ live →
    context.placement.locations[v]? = some (.xmm x) →
    some v ≠ i.definition → ∃ offset, context.placement.savedXmms.lookup x = some offset
  label : ∀ {id}, i = .label id → id < context.function.blocks.size
  target : ∀ {id}, i.jumpsTo id = true → id < context.function.blocks.size

variable {i : Instruction} {live : VariableSet}

theorem labelOf_eq_ok {id : BlockId} (h : id < context.function.blocks.size) :
    context.labelOf id = .ok (context.function.labelOf id) := by
  obtain ⟨block, hb⟩ := Function.exists_block? h
  rw [labelOf, Function.block, hb]
  rfl

theorem Covers.locates (h : context.Covers i live) {operand : Flow.Operand}
    (hoperand : operand ∈ i.operands) :
    ∀ v, operand = .var v → context.placement.Locates context.table v := by
  rintro v rfl
  exact h.located (.inl (Instruction.mem_uses.2 hoperand))

variable {result : Option Variable} {callee : SymbolId} {operands : List Flow.Operand}

theorem Covers.exists_arguments (h : context.Covers (.call result callee operands) live) :
    ∃ arguments, context.arguments operands = .ok arguments ∧ ∀ a ∈ arguments, a.Suits := by
  obtain ⟨parameters, returnType, -, -, hoperands⟩ := h.typed
  refine Context.exists_arguments fun operand hmem => ?_
  obtain ⟨parameter, -, ty, hty, -⟩ := forall₂_exists_left hoperands.flip hmem
  exact ⟨ty, hty, h.locates hmem⟩

theorem exists_call (h : context.Covers (.call result callee operands) live) :
    ∃ c, context.Calls result operands live c ∧ context.SavesFor result live c.saved := by
  obtain ⟨saved, hsaved, hsaves⟩ := @exists_savedAcross context result live
    (fun v hv => by
      obtain ⟨location, -, hlocation, -⟩ := h.located (.inr (.inr hv))
      exact ⟨location, hlocation⟩)
    (fun v hv x hne hx => h.saved rfl hv hx hne)
  obtain ⟨arguments, harguments, hsuits⟩ := h.exists_arguments
  obtain ⟨pushes, hpushes, -⟩ := exists_mapM (l := (arguments.filter Argument.isOnStack).reverse)
    (g := fun argument => pushArgument argument.value argument.ty) (P := fun _ _ => True) (by
      intro a ha
      obtain ⟨code, hcode⟩ :=
        (hsuits a (List.mem_of_mem_filter (List.mem_reverse.1 ha))).exists_push
      exact ⟨code, hcode, trivial⟩)
  obtain ⟨loads, hloads, -⟩ := exists_mapM (l := arguments) (g := Argument.load)
    (P := fun _ _ => True) (by
      intro a ha
      obtain ⟨code, hcode⟩ := (hsuits a ha).exists_load
      exact ⟨code, hcode, trivial⟩)
  obtain ⟨taking, htaking⟩ := @exists_takeResult context result
    fun v hv => h.located (.inr (.inl hv))
  exact ⟨⟨saved, arguments, pushes, loads, taking⟩,
    ⟨hsaved, harguments, hpushes, hloads, htaking⟩, hsaves⟩

theorem exists_returnValue {value : Option (Flow.Operand × Ty)}
    (h : context.Covers (.ret value) live) : ∃ code, context.returnValue value = .ok code := by
  cases value with
  | none => exact ⟨_, rfl⟩
  | some p =>
    obtain ⟨operand, ty⟩ := p
    have hoperand : operand ∈ (Instruction.ret (some (operand, ty))).operands :=
      List.mem_singleton_self operand
    obtain ⟨value, hvalue, hsuits⟩ := exists_valueOf (h.locates hoperand) (h.typed operand ty rfl)
    rw [returnValue, hvalue, bind_ok]
    cases ty with
    | float width => exact ⟨_, rfl⟩
    | int width signed => exact exists_loadInteger .rax hsuits rfl
    | bool => exact exists_loadInteger .rax hsuits rfl

theorem exists_branch {condition : Flow.Operand} {target : BlockId} (label : String)
    (h : context.Covers (.branch condition target) live) :
    ∃ code, context.branch condition label = .ok code := by
  cases condition with
  | constant c => exact ⟨_, rfl⟩
  | var v =>
    obtain ⟨place, hplace, -⟩ :=
      exists_placeOf (h.locates (List.mem_singleton_self _) v rfl) h.typed
    rw [branch, hplace]
    exact ⟨_, rfl⟩

theorem exists_select (h : context.Covers i live) : ∃ lines, context.select live i = .ok lines := by
  cases i with
  | label block =>
    rw [select, labelOf_eq_ok (h.label rfl)]
    exact ⟨_, rfl⟩
  | goto target =>
    rw [select, labelOf_eq_ok (h.target (beq_self_eq_true target))]
    exact ⟨_, rfl⟩
  | branch condition target =>
    obtain ⟨code, hcode⟩ := exists_branch (context.function.labelOf target) h
    rw [select, labelOf_eq_ok (h.target (beq_self_eq_true target)), bind_ok, hcode]
    exact ⟨_, rfl⟩
  | call result callee operands =>
    obtain ⟨c, hc, -⟩ := exists_call h
    rw [select, call_eq_ok.2 ⟨c, hc, rfl⟩]
    exact ⟨_, rfl⟩
  | ret value =>
    obtain ⟨code, hcode⟩ := exists_returnValue h
    rw [select, hcode]
    exact ⟨_, rfl⟩
  | binary result lhs op rhs operandTy resultTy =>
    obtain ⟨hresult, hlhs, hrhs, -⟩ := h.typed
    obtain ⟨place, hplace, -⟩ := exists_placeOf (h.located (.inr (.inl rfl))) hresult
    obtain ⟨left, hleft, hleftSuits⟩ :=
      exists_valueOf (h.locates (by simp [Instruction.operands])) hlhs
    obtain ⟨right, hright, hrightSuits⟩ :=
      exists_valueOf (h.locates (by simp [Instruction.operands])) hrhs
    obtain ⟨code, hcode⟩ := exists_binary op hleftSuits hrightSuits
    rw [select, hplace, bind_ok, hleft, bind_ok, hright, bind_ok, hcode]
    exact ⟨_, rfl⟩
  | cast result source sourceTy targetTy =>
    obtain ⟨hresult, hsource, hne, hconverts⟩ := h.typed
    obtain ⟨place, hplace, -⟩ := exists_placeOf (h.located (.inr (.inl rfl))) hresult
    obtain ⟨value, hvalue, hsuits⟩ :=
      exists_valueOf (h.locates (List.mem_singleton_self _)) hsource
    obtain ⟨code, hcode⟩ := exists_cast hsuits hne hconverts
    rw [select, hplace, bind_ok, hvalue, bind_ok, hcode]
    exact ⟨_, rfl⟩
  | alloca result ty => exact ⟨_, rfl⟩
  | store destination value ty =>
    obtain ⟨place, hplace, -⟩ := exists_placeOf (h.located (.inr (.inl rfl))) h.typed.1
    obtain ⟨value, hvalue, -⟩ := exists_valueOf (h.locates (List.mem_singleton_self _)) h.typed.2
    rw [select, hplace, bind_ok, hvalue]
    exact ⟨_, rfl⟩
  | load result source ty =>
    obtain ⟨place, hplace, -⟩ := exists_placeOf (h.located (.inr (.inl rfl))) h.typed.1
    obtain ⟨origin, horigin, -⟩ :=
      exists_placeOf (h.locates (List.mem_singleton_self _) source rfl) h.typed.2
    rw [select, hplace, bind_ok, horigin]
    exact ⟨_, rfl⟩

end Context

end Cinder.Codegen
