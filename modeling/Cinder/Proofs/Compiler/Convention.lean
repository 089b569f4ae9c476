import Cinder.Proofs.Codegen.Pointers
import Cinder.Proofs.Compiler.Linkage

/-!
# The calling convention

A call leaves every argument where the called function has placed the parameter: in the
same register, or in the word of the stack that its frame holds the parameter in.  It
takes a multiple of sixteen bytes from the stack and gives the same number back, so that
the stack pointer is aligned at every call instruction.
-/

namespace Cinder

open Cinder.Flow hiding State
open Codegen Interference Machine

/-! ## Frames in memory -/

namespace Machine.State

/-- The frame of a function lies between the stack pointer and the frame pointer, which is
aligned. -/
structure Framed (s : State) (p : Placement) : Prop where
  top : s.reg .rsp = s.reg .rbp - BitVec.ofNat 64 p.frameSize
  aligned : 16 ∣ (s.reg .rbp).toNat

/-- The memory holds some bytes below the frame pointer, and no constant lies among them. -/
structure Roomy (s : State) (pool : Pool Constant) (bytes : Nat) : Prop where
  fits : bytes < 2 ^ 64
  constants : ∀ {entry c}, pool.entries[entry]? = some c → ∀ i < (Size.ofTy c.ty).bytes,
    ¬ span (s.reg .rbp - BitVec.ofNat 64 bytes) bytes (s.entry entry + BitVec.ofNat 64 i)

theorem Framed.of_pointers {s t : State} {p : Placement} (h : s.Framed p)
    (hrsp : t.reg .rsp = s.reg .rsp) (hrbp : t.reg .rbp = s.reg .rbp) : t.Framed p := by
  constructor
  · rw [hrsp, hrbp, h.top]
  · rw [hrbp]
    exact h.aligned

variable {bytes : Nat}

/-- Every frame has such a state, as long as it leaves one word of the memory. -/
theorem exists_framed (p : Placement) (pool : Pool Constant) (hfits : bytes + 8 ≤ 2 ^ 64) :
    ∃ s : State, s.Framed p ∧ s.Roomy pool bytes := by
  let reg : Reg → BitVec 64 := fun r => if r = .rsp then 0 - BitVec.ofNat 64 p.frameSize else 0
  refine ⟨⟨reg, fun _ => 0, fun _ => 0, fun _ => 0⟩, ⟨rfl, Nat.dvd_zero 16⟩, by omega, ?_⟩
  intro entry c _ i hi
  have hsize : (Size.ofTy c.ty).bytes ≤ 8 := by cases Size.ofTy c.ty <;> decide
  change ¬ span (0 - BitVec.ofNat 64 bytes) bytes (0 + BitVec.ofNat 64 i)
  unfold span
  bv_omega

theorem address_frame (s : State) (depth : Nat) :
    s.address (.frame (-depth)) = s.reg .rbp - BitVec.ofNat 64 depth := by
  rw [address, BitVec.ofInt_neg, BitVec.ofInt_natCast, BitVec.sub_eq_add_neg]

theorem dvd_toNat_sub {a : BitVec 64} (ha : 16 ∣ a.toNat) (hbytes : 16 ∣ bytes) :
    16 ∣ (a - BitVec.ofNat 64 bytes).toNat := by
  rw [BitVec.toNat_sub, BitVec.toNat_ofNat]
  omega

theorem not_span_deeper {base : BitVec 64} {depth depth' i : Nat} (hdepth : depth + bytes ≤ depth')
    (hi : i < depth) (hfits : depth' < 2 ^ 64) :
    ¬ span (base - BitVec.ofNat 64 depth') bytes
      (base - BitVec.ofNat 64 depth + BitVec.ofNat 64 i) := by
  unfold span
  bv_omega

end Machine.State

namespace Placement.Laid

variable {p : Placement} {table : SymbolTable} {f : Function} {v : Variable} {x : Xmm}
  {offset offset' : Int}

theorem exists_depth (hp : p.Laid table f) {bytes : Nat} (h : (offset, bytes) ∈ p.slots table) :
    ∃ depth : Nat, offset = -depth ∧ bytes ≤ depth ∧ depth ≤ p.frameSize := by
  have hinside := hp.packed.inside h
  exact ⟨(-offset).toNat, by omega, by omega, by omega⟩

theorem savedXmm_below_spill (hp : p.Laid table f) (hx : (x, offset') ∈ p.savedXmms)
    (hv : (v, offset) ∈ p.spills) : offset' + 8 ≤ offset := by
  have hpairwise := hp.packed.pairwise
  rw [slots, List.pairwise_append] at hpairwise
  exact hpairwise.2.2 _ (List.mem_append_left _ (List.mem_map_of_mem hv)) _
    (List.mem_map_of_mem hx)

end Placement.Laid

/-! ## Arguments in the frame of the caller -/

namespace Codegen.Context

open Machine.State

variable {context : Context} {result : Option Variable} {operands : List Flow.Operand}
  {live : VariableSet} {c : CallCode} {s : State}

section

variable (hp : context.placement.Laid context.table context.function)
  (hsaves : context.SavesFor result live c.saved) (hs : s.Framed context.placement)

include hp hsaves hs

/-- What a call writes in memory lies in the frame of the caller and in the bytes that the
call takes from the stack. -/
theorem SavesFor.span_of_area {a : BitVec 64} (ha : c.area s a) :
    span (s.reg .rbp - BitVec.ofNat 64 (c.bytes + context.placement.frameSize))
      (c.bytes + context.placement.frameSize) a := by
  rcases ha with ⟨⟨x, offset⟩, hslot, ha⟩ | ha
  · have hmem := hp.lookup_savedXmms.1 (hsaves.mem_iff.1 hslot).1
    obtain ⟨depth, rfl, hbytes, hdepth⟩ :=
      hp.exists_depth (Placement.Laid.mem_slots_of_mem_savedXmms hmem)
    rw [address_frame] at ha
    exact span_below hbytes (Nat.le_trans hdepth (Nat.le_add_left ..)) ha
  · rw [hs.top, BitVec.sub_sub, ← BitVec.ofNat_add, Nat.add_comm] at ha
    exact span_below (Nat.le_add_right ..) (Nat.le_refl _) ha

theorem SavesFor.not_area (hfits : c.bytes + context.placement.frameSize < 2 ^ 64) {v : Variable}
    {offset : Int} (hv : (v, offset) ∈ context.placement.spills) {ty : Ty}
    (hty : context.table.type? v.symbol = some ty) :
    ∀ i < ty.bytes, ¬ c.area s (s.address (.frame offset) + BitVec.ofNat 64 i) := by
  intro i hi
  obtain ⟨depth, rfl, hbytes, hdepth⟩ :=
    hp.exists_depth (Placement.Laid.mem_slots_of_mem_spills hv)
  rw [Placement.bytesIn, hty] at hbytes
  rw [address_frame]
  rintro (⟨⟨x, offset'⟩, hslot, hspan⟩ | hspan)
  · have hmem := hp.lookup_savedXmms.1 (hsaves.mem_iff.1 hslot).1
    have hbelow := hp.savedXmm_below_spill hmem hv
    obtain ⟨depth', rfl, -, hdepth'⟩ :=
      hp.exists_depth (Placement.Laid.mem_slots_of_mem_savedXmms hmem)
    rw [address_frame] at hspan
    exact not_span_deeper (by omega) (Nat.lt_of_lt_of_le hi hbytes) (by omega) hspan
  · rw [hs.top, BitVec.sub_sub, ← BitVec.ofNat_add] at hspan
    exact not_span_deeper (by omega) (Nat.lt_of_lt_of_le hi hbytes) (by omega) hspan

/-- A variable that is no parameter keeps its value in front of a call instruction. -/
theorem SavesFor.stable_place (hfits : c.bytes + context.placement.frameSize < 2 ^ 64)
    {v : Variable} (hv : v ∉ context.function.parameters) {location : Location}
    (hlocation : context.placement.locations[v]? = some location) {ty : Ty}
    (hty : context.table.type? v.symbol = some ty) :
    s.Stable approachRegs approachXmms (c.area s) ty (.place (.ofLocation ty location)) := by
  have hkeeps := hp.keeps hv hlocation
  cases location with
  | reg r =>
    have hapart : ∀ r ∈ allocatableRegs, r ∉ approachRegs := by decide
    exact stable_reg (hapart r (hp.regs.1 hkeeps).1)
  | xmm x =>
    have hapart : ∀ x ∈ allocatableXmms, x ∉ approachXmms := by decide
    exact stable_xmm (hapart x (hp.xmms.1 hkeeps).1)
  | stack offset =>
    refine stable_frame (by decide) ?_
    rw [Size.bytes_ofTy]
    exact hsaves.not_area hp hs hfits hkeeps hty

theorem SavesFor.stable_constant
    (hroom : s.Roomy context.pool (c.bytes + context.placement.frameSize)) {k : Constant}
    (hpool : ∀ width bits, k = .float width bits → k ∈ context.pool.entries) {value : Value}
    (h : context.valueOf (.constant k) = .ok value) :
    s.Stable approachRegs approachXmms (c.area s) k.ty value := by
  rw [valueOf] at h
  split at h
  · cases h
    exact stable_imm _
  · rename_i hint
    cases h
    cases k with
    | float width bits =>
      have hentry := Pool.getElem?_number (hpool width bits rfl)
      refine stable_data fun i hi harea => ?_
      exact hroom.constants hentry i hi (hsaves.span_of_area hp hs harea)
    | int width signed bits => cases signed <;> cases hint
    | bool value => cases hint

end

/-- The arguments of a call keep their values up to the call instruction. -/
theorem Calls.stable (h : context.Calls result operands live c)
    (hp : context.placement.Laid context.table context.function)
    (hsaves : context.SavesFor result live c.saved) (hs : s.Framed context.placement)
    (hroom : s.Roomy context.pool (c.bytes + context.placement.frameSize))
    (hvars : ∀ v, .var v ∈ operands → v ∉ context.function.parameters ∧
      context.placement.Locates context.table v)
    (hpool : ∀ width bits, .constant (.float width bits) ∈ operands →
      .float width bits ∈ context.pool.entries) :
    ∀ a ∈ c.arguments, s.Stable approachRegs approachXmms (c.area s) a.ty a.value := by
  rintro ⟨slot, value, ty⟩ ha
  obtain ⟨operand, hoperand, hvalue, hty⟩ : ∃ operand ∈ operands,
      context.valueOf operand = .ok value ∧ context.typeOf operand = .ok ty :=
    forall₂_exists_left (passes_of_arguments h.arguments).operands ha
  cases operand with
  | constant k =>
    cases hty
    refine hsaves.stable_constant hp hs hroom ?_ hvalue
    rintro width bits rfl
    exact hpool width bits hoperand
  | var v =>
    obtain ⟨hparameter, location, ty', hlocation, hty', -⟩ := hvars v hoperand
    cases hty.symm.trans (SymbolTable.typeOf_eq_ok.2 hty')
    obtain ⟨place, hplace, hvalue⟩ := bind_eq_ok.1 hvalue
    cases hplace.symm.trans (placeOf_eq_ok hlocation hty')
    cases hvalue
    exact hsaves.stable_place hp hs hroom.fits hparameter hlocation hty'

theorem Covers.suits {callee : SymbolId} (h : context.Covers (.call result callee operands) live)
    (hcalls : context.Calls result operands live c) : ∀ a ∈ c.arguments, a.Suits := by
  obtain ⟨arguments, harguments, hsuits⟩ := h.exists_arguments
  cases hcalls.arguments.symm.trans harguments
  exact hsuits

end Codegen.Context

/-! ## Parameters of the called function -/

theorem Placement.Laid.forall₂_parameters {q : Placement} {table : SymbolTable} {g : Function}
    (hq : q.Laid table g) (hnodup : g.parameters.Nodup) {types : List Ty}
    (htypes : List.Forall₂ (fun v ty => table.type? v.symbol = some ty) g.parameters types) :
    List.Forall₂ (fun v slot => q.locations[v]? = some slot.location) g.parameters
      (ArgumentSlot.ofClasses (types.map Ty.valueClass)) := by
  obtain ⟨arrivals, harrivals, hlocations⟩ := hq.arrives
  have hkeys := (arrive_of_parameterLocations harrivals).keys
  obtain ⟨types', htypes', harrivals⟩ := bind_eq_ok.1 harrivals
  have htypes' := (forall₂_of_mapM htypes').imp fun _ _ => SymbolTable.typeOf_eq_ok.1
  have hunique : Relator.RightUnique fun (v : Variable) ty => table.type? v.symbol = some ty :=
    fun _ _ _ h h' => Option.some.inj (h.symm.trans h')
  cases List.right_unique_forall₂' hunique htypes htypes'
  cases harrivals
  have hlength : g.parameters.length =
      (ArgumentSlot.ofClasses (types.map Ty.valueClass)).length := by
    rw [htypes.length_eq, ArgumentSlot.ofClasses, ArgumentSlot.length_assign, List.length_map]
  refine List.forall₂_iff_zip.2 ⟨hlength, fun {v slot} hmem => ?_⟩
  have harrival : (v, slot.location) ∈ g.parameters.zip
      ((ArgumentSlot.ofClasses (types.map Ty.valueClass)).map ArgumentSlot.location) := by
    rw [List.zip_map_right]
    exact List.mem_map_of_mem hmem
  obtain ⟨location, hmem', hlocation⟩ := hlocations v (List.of_mem_zip hmem).1
  rw [← hkeys] at hnodup
  cases List.inj_on_of_nodup_map hnodup harrival hmem' rfl
  exact hlocation

/-- The parameters of a function live where arguments of their types are passed. -/
theorem Codegen.Context.Passes.forall₂_parameters {context : Context} {operands : List Flow.Operand}
    {arguments : List Context.Argument} (h : context.Passes operands arguments) {g : Function}
    {q : Placement} (hq : q.Laid context.table g) (hnodup : g.parameters.Nodup)
    (hoperands : List.Forall₂ (fun operand parameter => ∃ ty, operand.HasType context.table ty ∧
      context.table.type? parameter.symbol = some ty) operands g.parameters) :
    List.Forall₂ (fun argument parameter =>
      context.table.type? parameter.symbol = some argument.ty ∧
      q.locations[parameter]? = some argument.slot.location) arguments g.parameters := by
  have htyped : List.Forall₂ (fun parameter argument =>
      context.table.type? parameter.symbol = some argument.ty) g.parameters arguments := by
    refine forall₂_trans ?_ hoperands.flip h.operands
    rintro parameter operand argument ⟨ty, hty, hparameter⟩ ⟨-, hargument⟩
    cases hargument.symm.trans (typeOf_eq_ok hty)
    exact hparameter
  have hlocations := hq.forall₂_parameters hnodup (List.forall₂_map_right_iff.2 htyped)
  have hslots : ArgumentSlot.ofClasses ((arguments.map Argument.ty).map Ty.valueClass) =
      arguments.map Argument.slot := by
    rw [List.map_map]
    exact h.slots.symm
  rw [hslots, List.forall₂_map_right_iff] at hlocations
  exact (List.Forall₂.mp (fun _ _ => And.intro) htyped hlocations).flip

/-! ## Calls -/

namespace Codegen.Context

open Machine.State

def Arrives (context : Context) (q : Placement) (s t : State) (operand : Flow.Operand)
    (parameter : Variable) : Prop :=
  ∃ ty value location, context.typeOf operand = .ok ty ∧ context.valueOf operand = .ok value ∧
    parameter.typeIn context.table = .ok ty ∧ q.locations[parameter]? = some location ∧
    t.passed ty location = s.value ty value

/-- The code around a call instruction passes operands to a function: what is in front
takes some bytes from the stack and leaves the operands where the parameters are, what is
behind gives the bytes back. -/
structure Serves (context : Context) (operands : List Flow.Operand) (g : Function) (q : Placement)
    (before behind : List Instr) (bytes : Nat) : Prop where
  dvd : 16 ∣ bytes
  front : ∀ s : State, s.Framed context.placement → ∃ t, s.run before = some t ∧
    t.reg .rbp = s.reg .rbp ∧ t.reg .rsp = s.reg .rsp - BitVec.ofNat 64 bytes ∧
    16 ∣ (t.reg .rsp).toNat ∧
    (s.Roomy context.pool (bytes + context.placement.frameSize) →
      List.Forall₂ (context.Arrives q s t) operands g.parameters)
  back : ∀ s : State, ∃ t, s.run behind = some t ∧ t.reg .rbp = s.reg .rbp ∧
    t.reg .rsp = s.reg .rsp + BitVec.ofNat 64 bytes

theorem Calls.serves {context : Context} {result : Option Variable} {operands : List Flow.Operand}
    {live : VariableSet} {c : CallCode} (h : context.Calls result operands live c)
    (hp : context.placement.Laid context.table context.function)
    (hsaves : context.SavesFor result live c.saved) (hsuits : ∀ a ∈ c.arguments, a.Suits)
    (hvars : ∀ v, .var v ∈ operands → v ∉ context.function.parameters ∧
      context.placement.Locates context.table v)
    (hpool : ∀ width bits, .constant (.float width bits) ∈ operands →
      .float width bits ∈ context.pool.entries)
    (hresult : ∀ v ∈ result, context.placement.Locates context.table v) {g : Function}
    {q : Placement} (hq : q.Laid context.table g) (hnodup : g.parameters.Nodup)
    (hoperands : List.Forall₂ (fun operand parameter => ∃ ty, operand.HasType context.table ty ∧
      context.table.type? parameter.symbol = some ty) operands g.parameters) :
    context.Serves operands g q c.approach c.aftermath c.bytes := by
  refine ⟨c.dvd_bytes, fun s hs => ?_, fun s => ?_⟩
  · obtain ⟨t, hrun, hchanges, hrsp, hpassed⟩ := h.exists_run_approach hsuits s
    refine ⟨t, hrun, hchanges.reg _ (by decide), hrsp, ?_, fun hroom => ?_⟩
    · rw [hrsp, hs.top]
      exact dvd_toNat_sub (dvd_toNat_sub hs.aligned hp.aligned) c.dvd_bytes
    · have hstable := h.stable hp hsaves hs hroom hvars hpool
      have hpassed := hpassed (Nat.lt_of_le_of_lt (Nat.le_add_right ..) hroom.fits)
      have hpasses := passes_of_arguments h.arguments
      have hmember := forall₂_imp_of_mem (fun _ hb h => And.intro hb h) hpasses.operands
      refine forall₂_trans ?_ hmember (hpasses.forall₂_parameters hq hnodup hoperands)
      rintro operand a parameter ⟨ha, hvalue, hty⟩ ⟨hparameter, hlocation⟩
      exact ⟨a.ty, a.value, a.slot.location, hty, hvalue, SymbolTable.typeOf_eq_ok.2 hparameter,
        hlocation, hpassed a ha (hstable a ha)⟩
  · obtain ⟨t, hrun, hrsp, hrbp⟩ := h.exists_run_aftermath hp hresult s
    exact ⟨t, hrun, hrbp, hrsp⟩

/-- A call passes its operands to the function that it calls, whose variables have been
placed. -/
def Agrees (context : Context) (m : Module) (result : Option Variable) (callee : SymbolId)
    (operands : List Flow.Operand) (live : VariableSet) : Prop :=
  ∃ g ∈ m.functions, g.symbol = callee ∧ ∃ live' q, g.instructionLiveness = .ok live' ∧
    Placement.ofLiveness m.symbols g live' = .ok q ∧ ∃ before behind bytes,
      context.call result callee operands live =
        .ok (before ++ .call (symbolName g.name) :: behind) ∧
      context.Serves operands g q before behind bytes

/-! ## Functions -/

/-- The states that a function goes through between its instructions, in whatever order
these follow each other, if the functions that it calls return with the stack pointer and
the frame pointer that they were called with. -/
inductive Reaches (context : Context) (order : List BlockId)
    (live : Arena (List (Point VariableSet))) (origin : State) : State → Prop
  | enter {debugInfo : Bool} {s : State}
      (hrun : origin.run ((context.prologue debugInfo).filterMap Line.instr?) = some s) :
      Reaches context order live origin s
  | pass {s t : State} {id : BlockId} {i : Instruction} {point : Point VariableSet}
      {lines : List Line} (hs : Reaches context order live origin s) (hid : id ∈ order)
      (hmem : (i, point) ∈ annotated context.function live id)
      (hcall : ∀ result callee operands, i ≠ .call result callee operands)
      (hret : ∀ value, i ≠ .ret value) (hlines : context.select point.after i = .ok lines)
      (hrun : s.Traverses (lines.filterMap Line.instr?) t) : Reaches context order live origin t
  | call {s t u v : State} {id : BlockId} {result : Option Variable} {callee : SymbolId}
      {operands : List Flow.Operand} {point : Point VariableSet} {before behind : List Instr}
      {label : String} (hs : Reaches context order live origin s) (hid : id ∈ order)
      (hmem : (.call result callee operands, point) ∈ annotated context.function live id)
      (hcode : context.call result callee operands point.after =
        .ok (before ++ .call label :: behind))
      (hfront : s.run before = some t) (hrsp : u.reg .rsp = t.reg .rsp)
      (hrbp : u.reg .rbp = t.reg .rbp) (hback : u.run behind = some v) :
      Reaches context order live origin v

/-- The code of a function keeps the calling convention.  Its frame is in place at all its
instructions, and every call passes its operands to the called function. -/
structure Conforms (context : Context) (m : Module) (order : List BlockId)
    (live : Arena (List (Point VariableSet))) : Prop where
  enters : ∀ debugInfo (origin : State), ∃ s,
    origin.run ((context.prologue debugInfo).filterMap Line.instr?) = some s ∧
      s.reg .rbp = origin.reg .rsp - 8
  framed : ∀ {origin s : State}, 16 ∣ (origin.reg .rsp + 8).toNat →
    context.Reaches order live origin s → s.Framed context.placement
  calls : ∀ {id result callee operands point}, id ∈ order →
    (.call result callee operands, point) ∈ annotated context.function live id →
    context.Agrees m result callee operands point.after

end Codegen.Context

variable {f : Function} {m : Module} {live : Arena (List (Point VariableSet))} {p : Placement}

theorem Flow.Function.Ready.not_mem_parameters {table : SymbolTable} (h : f.Ready table)
    {id : BlockId} (hid : id ∈ f.preorder) {i : Instruction} (hi : i ∈ f.instructionsOf id)
    (hover : i.overwrites = true) {v : Variable} (hv : v ∈ i.uses) :
    v ∉ f.parameters := by
  obtain ⟨⟨hl, -⟩, -⟩ := h.standard
  obtain ⟨block, hb⟩ := Function.exists_block? (Function.lt_size_of_mem_preorder hl.exit hid)
  rw [Function.instructionsOf_of_block? hb] at hi
  exact (h.receives.first hb).within i hi hover v hv

section

variable (hm : m.Ready) (hf : f ∈ m.functions) (hp : f.Placed m.symbols live p)

include hm hf hp

theorem Flow.Module.Ready.agrees (color : Bool) {id : BlockId} (hid : id ∈ f.preorder)
    {result : Option Variable} {callee : SymbolId} {operands : List Operand}
    {point : Point VariableSet}
    (hmem : (.call result callee operands, point) ∈ annotated f live id) :
    (Context.mk m.symbols f p m.pool color).Agrees m result callee operands point.after := by
  have hready := hm.functions f hf
  have hcovers := hready.covers hp m.pool color hid hmem
  have hi := hp.mem_instructionsOf hid hmem
  obtain ⟨c, hcalls, hsaves⟩ := Context.exists_call hcovers
  obtain ⟨parameters, returnType, hcallee, -, hoperands⟩ := hcovers.typed
  obtain ⟨g, hg, hsymbol, hname, hparameters⟩ := hm.closed hcallee
  obtain ⟨live', q, hq⟩ := (hm.functions g hg).exists_placed
  refine ⟨g, hg, hsymbol, live', q, hq.liveness, hq.placement, c.approach, c.aftermath, c.bytes,
    ?_, ?_⟩
  · rw [hname, ← c.code_eq]
    exact Context.call_eq_ok.2 ⟨c, hcalls, rfl⟩
  · refine hcalls.serves hp.laid hsaves (hcovers.suits hcalls) (fun v hv => ?_)
      (fun width bits hc => ?_) (fun v hv => hcovers.located (.inr (.inl hv))) hq.laid
      (hm.functions g hg).distinct ?_
    · have huses : v ∈ (Instruction.call result callee operands).uses := Instruction.mem_uses.2 hv
      exact ⟨hready.not_mem_parameters hid hi rfl huses, hcovers.located (.inl huses)⟩
    · exact hm.mem_pool_of_hasOperand ⟨f, hf, id, hid, _, hi, hc⟩
    · rw [hparameters, List.forall₂_map_right_iff]
      exact hoperands

/-- The frame of a function is in place between any two of its instructions. -/
theorem Flow.Module.Ready.framed_of_reaches {color : Bool} {origin s : Machine.State}
    (horigin : 16 ∣ (origin.reg .rsp + 8).toNat)
    (h : (Context.mk m.symbols f p m.pool color).Reaches f.preorder live origin s) :
    s.Framed p := by
  induction h with
  | @enter debugInfo s hrun =>
    obtain ⟨s', hrun', hrbp, hrsp⟩ := (Context.mk m.symbols f p m.pool color).exists_run_prologue
      debugInfo origin
    cases hrun.symm.trans hrun'
    have hshift : origin.reg .rsp - 8 = origin.reg .rsp + 8 - BitVec.ofNat 64 16 := by bv_omega
    refine ⟨hrsp, ?_⟩
    rw [hrbp, hshift]
    exact Machine.State.dvd_toNat_sub horigin (Nat.dvd_refl 16)
  | @pass s t id i point lines _ hid hmem hcall hret hlines hrun ih =>
    have hsteady : ∀ instr ∈ lines.filterMap Line.instr?, instr.Steady := by
      intro instr hinstr
      obtain ⟨line, hline, heq⟩ := List.mem_filterMap.1 hinstr
      cases line with
      | instr i =>
        cases heq
        rcases Context.steady_select hp.laid hlines hcall hline with h | ⟨-, value, h⟩
        · exact h
        · exact absurd h (hret value)
      | _ => cases heq
    have hkept := hrun.reg_eq hsteady
    exact ih.of_pointers (hkept _ (by decide)) (hkept _ (by decide))
  | @call s t u v id result callee operands point before behind label _ hid hmem hcode hfront hrsp
      hrbp hback ih =>
      obtain ⟨g, -, -, live', q, -, -, before', behind', bytes, hcode', hserves⟩ :=
        hm.agrees hf hp color hid hmem
      obtain ⟨t', hfront', htrbp, htrsp, -⟩ := hserves.front s ih
      obtain ⟨v', hback', hvrbp, hvrsp⟩ := hserves.back u
      -- The code in front of a call instruction and that behind it run, and hold no other.
      have hsplit := (List.append_cons_inj_of_notMem (Machine.State.call_not_mem hfront' label)
        (Machine.State.call_not_mem hback' label)).1 (Except.ok.inj (hcode'.symm.trans hcode))
      obtain ⟨rfl, -, rfl⟩ := hsplit
      cases hfront.symm.trans hfront'
      cases hback.symm.trans hback'
      refine ih.of_pointers ?_ ?_
      · rw [hvrsp, hrsp, htrsp, BitVec.sub_add_cancel]
      · rw [hvrbp, hrbp, htrbp]

theorem Flow.Module.Ready.conforms (color : Bool) :
    (Context.mk m.symbols f p m.pool color).Conforms m f.preorder live := by
  refine ⟨fun debugInfo origin => ?_, hm.framed_of_reaches hf hp,
    fun hid hmem => hm.agrees hf hp color hid hmem⟩
  obtain ⟨s, hrun, hrbp, -⟩ :=
    (Context.mk m.symbols f p m.pool color).exists_run_prologue debugInfo origin
  exact ⟨s, hrun, hrbp⟩

end

/-- In an accepted program, optimized with any passes, callers and called functions agree on
where arguments are, and the stack is aligned at every call. -/
theorem Program.exists_conforms {text : String} {program : Program.Typed} {table : SymbolTable}
    (hsource : Program.ofSource text = .ok (program, table)) (hfit : program.Addressable table) :
    ∃ m, program.lower table = .ok m ∧ ∀ passes, ∃ o, m.optimize passes = .ok o ∧
      ∀ f ∈ o.result.functions, ∃ order live p, f.order = .ok order ∧
        f.instructionLiveness = .ok live ∧ Placement.ofLiveness o.result.symbols f live = .ok p ∧
        (∀ id ∈ order, (annotated f live id).map Prod.fst = f.instructionsOf id) ∧
        16 ∣ p.frameSize ∧ ∀ color,
          (Context.mk o.result.symbols f p o.result.pool color).Conforms o.result order live := by
  obtain ⟨m, hlower, hm, -⟩ := exists_ready hsource hfit
  refine ⟨m, hlower, fun passes => ?_⟩
  obtain ⟨o, ho, hready, -⟩ := hm.exists_optimize passes
  refine ⟨o, ho, fun f hf => ?_⟩
  have hfready := hready.functions f hf
  obtain ⟨live, p, hp⟩ := hfready.exists_placed
  exact ⟨f.preorder, live, p, hfready.standard.wellFormed.linked.order, hp.liveness, hp.placement,
    fun id => hp.covers, hp.laid.aligned, fun color => hready.conforms hf hp color⟩

def seventh : String :=
  "fun seventh(a @s32, b @s32, c @s32, d @s32, e @s32, f @s32, g @s32, x @f64) @s32:\n" ++
    "    return g\n" ++
    "fun main() @s32:\n    var n @s32 = 7\n    return seventh(1, 2, 3, 4, 5, 6, n, 0.5)\n"

def seventhOperands : List Flow.Operand :=
  [.constant (.int .w32 true 1), .constant (.int .w32 true 2), .constant (.int .w32 true 3),
    .constant (.int .w32 true 4), .constant (.int .w32 true 5), .constant (.int .w32 true 6),
    .var ⟨23, 0⟩, .constant (.float .w64 0x3fe0000000000000)]

/-- The variable that is the seventh operand arrives where the seventh parameter is. -/
theorem Program.exists_conforms_seventh :
    ∃ program table m o f live p g live' q before behind bytes,
      Program.ofSource seventh = .ok (program, table) ∧ program.Addressable table ∧
      program.lower table = .ok m ∧ m.optimize Pass.all = .ok o ∧ f ∈ o.result.functions ∧
      f.instructionLiveness = .ok live ∧ Placement.ofLiveness o.result.symbols f live = .ok p ∧
      g ∈ o.result.functions ∧ g.instructionLiveness = .ok live' ∧
      Placement.ofLiveness o.result.symbols g live' = .ok q ∧
      g.parameters.length = 8 ∧ g.parameters[6]? = some ⟨7, 0⟩ ∧
      (Context.mk o.result.symbols f p o.result.pool false).Serves seventhOperands g q before behind
        bytes ∧
      (bytes + p.frameSize + 8 ≤ 2 ^ 64 → ∃ s t : State, s.Framed p ∧ s.run before = some t ∧
        16 ∣ (t.reg .rsp).toNat ∧
        (Context.mk o.result.symbols f p o.result.pool false).Arrives q s t (.var ⟨23, 0⟩)
          ⟨7, 0⟩) := by
  have hrun : (Program.examine seventh fun _ m => (m.optimize Pass.all).toOption.bind fun o =>
      (o.result.functions[1]?).bind fun f => f.order.toOption.bind fun order =>
        f.instructionLiveness.toOption.bind fun live => (annotated f live 0)[5]?.map fun q =>
          (order, q.1)) = some (34, [0, 1], .call (some ⟨24, 0⟩) 0 seventhOperands) := by
    delta seventh
    rw [Program.examine, Program.ofSource, Program.parse, ← String.ofList_append,
      ← String.ofList_append, tokenize_ofList]
    decide +kernel
  have hfunctions : (Program.examine seventh fun _ m => (m.optimize Pass.all).toOption.map fun o =>
      o.result.functions.map fun g => (g.symbol, g.parameters)) = some (34,
        [(0, [⟨1, 0⟩, ⟨2, 0⟩, ⟨3, 0⟩, ⟨4, 0⟩, ⟨5, 0⟩, ⟨6, 0⟩, ⟨7, 0⟩, ⟨8, 0⟩]), (9, [])]) := by
    delta seventh
    rw [Program.examine, Program.ofSource, Program.parse, ← String.ofList_append,
      ← String.ofList_append, tokenize_ofList]
    decide +kernel
  obtain ⟨program, table, m, hsource, hfit, hlower, -, hrun⟩ :=
    Program.exists_of_examine hrun (by decide)
  obtain ⟨o, ho, hrun⟩ := Option.bind_eq_some_iff.1 hrun
  obtain ⟨f, hf, hrun⟩ := Option.bind_eq_some_iff.1 hrun
  obtain ⟨order, horder, hrun⟩ := Option.bind_eq_some_iff.1 hrun
  obtain ⟨live, hlive, hrun⟩ := Option.bind_eq_some_iff.1 hrun
  obtain ⟨⟨i, point⟩, hpoint, hrun⟩ := Option.map_eq_some_iff.1 hrun
  cases hrun
  rw [toOption_eq_some] at ho horder hlive
  obtain ⟨_, _, _, hsource', -, hlower', -, hfunctions⟩ :=
    Program.exists_of_examine hfunctions (by decide)
  cases hsource.symm.trans hsource'
  cases hlower.symm.trans hlower'
  rw [ho] at hfunctions
  have hfunctions : o.result.functions.map (fun g => (g.symbol, g.parameters)) = _ :=
    Option.some.inj hfunctions
  obtain ⟨m', hlower', h⟩ := Program.exists_conforms hsource hfit
  cases hlower.symm.trans hlower'
  obtain ⟨o', ho', h⟩ := h Pass.all
  cases ho.symm.trans ho'
  obtain ⟨order', live₁, p, horder', hlive₁, hp, -, -, h⟩ := h f (List.mem_of_getElem? hf)
  cases horder.symm.trans horder'
  cases hlive.symm.trans hlive₁
  obtain ⟨g, hg, hsymbol, live', q, hlive', hq, before, behind, bytes, -, hserves⟩ :=
    (h false).calls List.mem_cons_self (List.mem_of_getElem? hpoint)
  have hparameters :
      g.parameters = [⟨1, 0⟩, ⟨2, 0⟩, ⟨3, 0⟩, ⟨4, 0⟩, ⟨5, 0⟩, ⟨6, 0⟩, ⟨7, 0⟩, ⟨8, 0⟩] := by
    have hmem := List.mem_map_of_mem (f := fun g : Function => (g.symbol, g.parameters)) hg
    rw [hfunctions, hsymbol] at hmem
    simpa using hmem
  refine ⟨program, table, m, o, f, live, p, g, live', q, before, behind, bytes, hsource, hfit,
    hlower, ho, List.mem_of_getElem? hf, hlive, hp, hg, hlive', hq, ?_, ?_, hserves,
    fun hfits => ?_⟩
  · rw [hparameters]
    rfl
  · rw [hparameters]
    rfl
  · obtain ⟨s, hframed, hroomy⟩ := State.exists_framed p o.result.pool hfits
    obtain ⟨t, hrun, -, -, haligned, harrive⟩ := hserves.front s hframed
    have harrive := harrive hroomy
    rw [hparameters] at harrive
    exact ⟨s, t, hframed, hrun, haligned, List.forall₂_zip harrive (by decide)⟩

end Cinder
