import Cinder.Proofs.Codegen.Routines

/-!
# Values across calls

What is needed behind a call is never a parameter.  It is in a register that the
called function preserves, in the frame, or in a vector register that the call saves in
front of the call instruction and restores behind it.
-/

namespace Cinder

open Cinder.Flow Codegen Interference Machine

/-! ## Saving and restoring -/

namespace Machine.Instr

def saves? : Instr → Option (Xmm × Int)
  | .movFloat .w64 (.mem .qword (.frame offset)) (.xmm x) => some (x, offset)
  | _ => none

def restores? : Instr → Option (Xmm × Int)
  | .movFloat .w64 (.xmm x) (.mem .qword (.frame offset)) => some (x, offset)
  | _ => none

end Machine.Instr

namespace Codegen

variable {r : Reg} {x : Xmm} {value : Value} {ty : Ty} {code : List Instr}

theorem saves?_of_mem_loadInteger (h : loadInteger r value ty = .ok code) :
    ∀ i ∈ code, i.saves? = none := by
  have hextend : ∀ source, (extend r source ty).saves? = none := by
    intro source
    unfold extend
    split <;> rfl
  unfold loadInteger at h
  split at h
  · cases h
    exact List.forall_mem_singleton.2 rfl
  · cases h
  · split at h
    · cases h
      exact List.forall_mem_nil _
    · cases h
      exact List.forall_mem_singleton.2 (hextend _)

theorem saves?_of_mem_move : ∀ i ∈ move (.xmm x) value ty, i.saves? = none := by
  unfold move
  split
  · exact List.forall_mem_nil _
  · split
    · rename_i width
      exact List.forall_mem_singleton.2 (by cases width <;> rfl)
    · exact List.forall_mem_singleton.2 rfl

theorem saves?_of_mem_pushArgument (h : Context.pushArgument value ty = .ok code) :
    ∀ i ∈ code, i.saves? = none := by
  unfold Context.pushArgument at h
  split at h
  · rename_i width
    cases h
    refine List.forall_mem_append.2 ⟨saves?_of_mem_move, ?_⟩
    exact List.forall_mem_cons.2 ⟨rfl, List.forall_mem_singleton.2 (by cases width <;> rfl)⟩
  · obtain ⟨load, hload, h⟩ := bind_eq_ok.1 h
    cases h
    exact List.forall_mem_append.2
      ⟨saves?_of_mem_loadInteger hload, List.forall_mem_singleton.2 rfl⟩

namespace Context

variable {context : Context} {result : Option Variable} {operands : List Flow.Operand}
  {live : VariableSet} {c : CallCode}

theorem saves?_of_mem_load {argument : Argument} (h : argument.load = .ok code) :
    ∀ i ∈ code, i.saves? = none := by
  unfold Argument.load at h
  split at h
  · exact saves?_of_mem_loadInteger h
  · cases h
    exact saves?_of_mem_move
  · cases h
    exact List.forall_mem_nil _

theorem restores?_of_mem_takeResult (h : context.takeResult result = .ok code) :
    ∀ i ∈ code, i.restores? = none := by
  unfold takeResult at h
  split at h
  · cases h
    exact List.forall_mem_nil _
  · obtain ⟨ty, -, h⟩ := bind_eq_ok.1 h
    obtain ⟨place, -, h⟩ := bind_eq_ok.1 h
    have hstore : ∀ i ∈ storeInteger place .rax ty, i.restores? = none := by
      unfold storeInteger
      split
      · exact List.forall_mem_nil _
      · exact List.forall_mem_singleton.2 rfl
    cases ty with
    | float width =>
      cases h
      unfold move
      split
      · exact List.forall_mem_nil _
      · cases place with
        | _ => exact List.forall_mem_singleton.2 (by cases width <;> rfl)
    | int width signed =>
      cases h
      exact hstore
    | bool =>
      cases h
      exact hstore

theorem filterMap_flatten_eq_nil {α : Type} {g : Instr → Option (Xmm × Int)} {l : List α}
    {codes : List (List Instr)} {produce : α → Except Fault (List Instr)}
    (h : l.mapM produce = .ok codes)
    (hnone : ∀ {a code}, produce a = .ok code → ∀ i ∈ code, g i = none) :
    codes.flatten.filterMap g = [] := by
  rw [List.filterMap_eq_nil_iff]
  intro i hi
  obtain ⟨code, hcode, hi⟩ := List.mem_flatten.1 hi
  obtain ⟨a, -, ha⟩ := forall₂_exists_left (forall₂_of_mapM h) hcode
  exact hnone ha i hi

theorem Calls.filterMap_saves? (h : context.Calls result operands live c) :
    c.approach.filterMap Instr.saves? = c.saved := by
  have hpushes := filterMap_flatten_eq_nil h.pushes saves?_of_mem_pushArgument
  have hloads := filterMap_flatten_eq_nil h.loads saves?_of_mem_load
  have hadjust : (adjust .sub c.gap).filterMap Instr.saves? = [] := by
    unfold adjust
    split <;> rfl
  have hparks : (c.saved.map fun slot => park slot.1 slot.2).filterMap Instr.saves? = c.saved := by
    rw [List.filterMap_map]
    exact List.filterMap_some
  rw [CallCode.approach, List.filterMap_append, List.filterMap_append, List.filterMap_append,
    hparks, hadjust, hpushes, hloads, List.append_nil, List.append_nil, List.append_nil]

theorem Calls.filterMap_restores? (h : context.Calls result operands live c) :
    c.aftermath.filterMap Instr.restores? = c.saved := by
  have htaking : c.taking.filterMap Instr.restores? = [] :=
    List.filterMap_eq_nil_iff.2 (restores?_of_mem_takeResult h.taking)
  have hadjust : (adjust .add (8 * c.onStack.length + c.gap)).filterMap Instr.restores? = [] := by
    unfold adjust
    split <;> rfl
  have hunparks :
      (c.saved.map fun slot => unpark slot.1 slot.2).filterMap Instr.restores? = c.saved := by
    rw [List.filterMap_map]
    exact List.filterMap_some
  rw [CallCode.aftermath, List.filterMap_append, List.filterMap_append, hadjust, htaking, hunparks,
    List.nil_append, List.nil_append]

end Context

end Codegen

/-! ## Calls -/

/-- A location whose content a call leaves alone, or saves. -/
def Placement.Endures (p : Placement) : Location → Prop
  | .reg r => r ∈ allocatableRegs ∧ r ∈ p.savedRegs.map Prod.fst
  | .xmm x => x ∈ allocatableXmms ∧ x ∈ p.savedXmms.map Prod.fst
  | .stack offset => offset < 0

variable {p : Placement} {table : SymbolTable} {f : Function}

theorem Placement.Laid.endures (hp : p.Laid table f) {v : Variable} {location : Location}
    (hv : v ∉ f.parameters) (h : p.locations[v]? = some location) : p.Endures location := by
  have hkeeps := hp.keeps hv h
  cases location with
  | reg r => exact ⟨(hp.regs.1 hkeeps).1, hkeeps⟩
  | xmm x => exact ⟨(hp.xmms.1 hkeeps).1, hkeeps⟩
  | stack offset => exact hp.spill_neg hkeeps

/-- The code around a call instruction keeps what is needed behind it. -/
structure Placement.Spares (p : Placement) (result : Option Variable) (live : VariableSet)
    (before behind : List Instr) : Prop where
  endures : ∀ v ∈ live, some v ≠ result →
    ∃ location, p.locations[v]? = some location ∧ p.Endures location
  saves : ∀ {x offset}, (x, offset) ∈ before.filterMap Instr.saves? ↔
    (x, offset) ∈ p.savedXmms ∧ ∃ v ∈ live, some v ≠ result ∧ p.locations[v]? = some (.xmm x)
  registers : ((before.filterMap Instr.saves?).map Prod.fst).Nodup
  slots : ((before.filterMap Instr.saves?).map Prod.snd).Nodup
  restores : behind.filterMap Instr.restores? = before.filterMap Instr.saves?
  result : ∀ {v x}, result = some v → p.locations[v]? = some (.xmm x) →
    x ∉ (behind.filterMap Instr.restores?).map Prod.fst

theorem Flow.Function.Placed.spares {live : Arena (List (Point VariableSet))} {pool : Pool Constant}
    {color : Bool} (hp : f.Placed table live p) {id : BlockId} (hid : id ∈ f.preorder)
    {result : Option Variable} {callee : SymbolId} {operands : List Operand}
    {point : Point VariableSet} (hmem : (.call result callee operands, point) ∈ annotated f live id)
    {c : Context.CallCode}
    (hcalls : (Context.mk table f p pool color).Calls result operands point.after c)
    (hsaves : (Context.mk table f p pool color).SavesFor result point.after c.saved) :
    p.Spares result point.after c.approach c.aftermath := by
  have hmem_iff : ∀ {x offset}, (x, offset) ∈ c.saved ↔ (x, offset) ∈ p.savedXmms ∧
      ∃ v ∈ point.after, some v ≠ result ∧ p.locations[v]? = some (.xmm x) := by
    intro x offset
    rw [hsaves.mem_iff]
    exact and_congr_left fun _ => hp.laid.lookup_savedXmms
  constructor
  · intro v hv _
    obtain ⟨location, -, hlocation, -⟩ := hp.around hid hmem (.inr (.inr hv))
    have hparameter : v ∉ f.parameters := fun h => hp.spared hid hmem rfl h hv
    exact ⟨location, hlocation, hp.laid.endures hparameter hlocation⟩
  · rw [hcalls.filterMap_saves?]
    exact hmem_iff
  · rw [hcalls.filterMap_saves?]
    exact hsaves.nodup
  · rw [hcalls.filterMap_saves?]
    refine List.Nodup.map_on (fun a ha b hb heq => ?_) (List.Nodup.of_map _ hsaves.nodup)
    have hinjective := List.inj_on_of_nodup_map hp.laid.nodup_offsets
    exact hinjective (hmem_iff.1 ha).1 (hmem_iff.1 hb).1 heq
  · rw [hcalls.filterMap_saves?, hcalls.filterMap_restores?]
  · intro v x hresult hx
    rw [hcalls.filterMap_restores?]
    intro hmem'
    obtain ⟨⟨_, offset⟩, hslot, rfl⟩ := List.mem_map.1 hmem'
    obtain ⟨-, u, hu, hne, hlocation⟩ := hmem_iff.1 hslot
    have hvu : v ≠ u := by
      rintro rfl
      exact hne hresult.symm
    exact hp.written hid hmem hresult hu hvu ⟨_, rfl, hx, hlocation⟩

/-- No value that is needed behind an instruction is lost with its registers: it is not
a parameter, and a call keeps it. -/
structure Codegen.Context.Survives (context : Context) (i : Instruction)
    (live : VariableSet) : Prop where
  parameters : i.overwrites = true → ∀ v ∈ context.function.parameters, v ∉ live
  calls : ∀ {result callee operands}, i = .call result callee operands → ∃ before behind,
    context.call result callee operands live =
        .ok (before ++ .call (symbolName (context.table.nameOf callee)) :: behind) ∧
      context.placement.Spares result live before behind

theorem Flow.Function.Ready.survives (h : f.Ready table) {live : Arena (List (Point VariableSet))}
    (hp : f.Placed table live p) (pool : Pool Constant) (color : Bool) {id : BlockId}
    (hid : id ∈ f.preorder) {i : Instruction} {point : Point VariableSet}
    (hmem : (i, point) ∈ annotated f live id) :
    (Context.mk table f p pool color).Survives i point.after := by
  constructor
  · exact fun hover v hv => hp.spared hid hmem hover hv
  · rintro result callee operands rfl
    obtain ⟨c, hcalls, hsaves⟩ := Context.exists_call (h.covers hp pool color hid hmem)
    refine ⟨c.approach, c.aftermath, ?_, hp.spares hid hmem hcalls hsaves⟩
    rw [← c.code_eq]
    exact Context.call_eq_ok.2 ⟨c, hcalls, rfl⟩

/-- In an accepted program, optimized with any passes, no value is lost across a call, an
operation or a load. -/
theorem Program.exists_survives {text : String} {program : Program.Typed} {table : SymbolTable}
    (hsource : Program.ofSource text = .ok (program, table)) (hfit : program.Addressable table) :
    ∃ m, program.lower table = .ok m ∧ ∀ passes, ∃ o, m.optimize passes = .ok o ∧
      ∀ f ∈ o.result.functions, ∃ order live p, f.order = .ok order ∧
        f.instructionLiveness = .ok live ∧ Placement.ofLiveness o.result.symbols f live = .ok p ∧
        ∀ id ∈ order, (annotated f live id).map Prod.fst = f.instructionsOf id ∧
          ∀ i point, (i, point) ∈ annotated f live id → ∀ pool color,
            (Context.mk o.result.symbols f p pool color).Survives i point.after := by
  obtain ⟨m, hlower, hm, -⟩ := exists_ready hsource hfit
  refine ⟨m, hlower, fun passes => ?_⟩
  obtain ⟨o, ho, hready, -⟩ := hm.exists_optimize passes
  refine ⟨o, ho, fun f hf => ?_⟩
  have hfready := hready.functions f hf
  obtain ⟨live, p, hp⟩ := hfready.exists_placed
  refine ⟨f.preorder, live, p, hfready.standard.wellFormed.linked.order, hp.liveness, hp.placement,
    fun id hid => ⟨hp.covers hid, fun i point hmem pool color => ?_⟩⟩
  exact hfready.survives hp pool color hid hmem

/-- A program that calls a function while it holds the result of another call. -/
def summing : String :=
  "fun one() @f64:\n    return 1.0\n" ++
    "fun main() @s32:\n    var a @f64 = one()\n    return (a + one()) as @s32\n"

/-- The first operand of the sum is live behind the second call, and is kept. -/
theorem Program.exists_survives_summing :
    ∃ program table m o f live p after before behind,
      Program.ofSource summing = .ok (program, table) ∧ program.Addressable table ∧
      program.lower table = .ok m ∧ m.optimize Pass.all = .ok o ∧ f ∈ o.result.functions ∧
      f.instructionLiveness = .ok live ∧ Placement.ofLiveness o.result.symbols f live = .ok p ∧
      ⟨7, 0⟩ ∈ after ∧
      (Context.mk o.result.symbols f p {} false).call (some ⟨8, 0⟩) 0 [] after =
        .ok (before ++ .call (symbolName (o.result.symbols.nameOf 0)) :: behind) ∧
      p.Spares (some ⟨8, 0⟩) after before behind := by
  have hrun : (Program.examine summing fun _ m => (m.optimize Pass.all).toOption.bind fun o =>
      (o.result.functions[1]?).bind fun f => f.order.toOption.bind fun order =>
        f.instructionLiveness.toOption.bind fun live => (annotated f live 0)[6]?.map fun q =>
          (order, q.1, q.2.after.toList)) =
      some (13, [0, 1], .call (some ⟨8, 0⟩) 0 [], [⟨7, 0⟩, ⟨8, 0⟩]) := by
    delta summing
    rw [Program.examine, Program.ofSource, Program.parse, ← String.ofList_append, tokenize_ofList]
    decide +kernel
  obtain ⟨program, table, m, hsource, hfit, hlower, -, hrun⟩ :=
    Program.exists_of_examine hrun (by decide)
  obtain ⟨o, ho, hrun⟩ := Option.bind_eq_some_iff.1 hrun
  obtain ⟨f, hf, hrun⟩ := Option.bind_eq_some_iff.1 hrun
  obtain ⟨order, horder, hrun⟩ := Option.bind_eq_some_iff.1 hrun
  obtain ⟨live, hlive, hrun⟩ := Option.bind_eq_some_iff.1 hrun
  obtain ⟨⟨i, before, after⟩, hpoint, hrun⟩ := Option.map_eq_some_iff.1 hrun
  simp only [Prod.mk.injEq] at hrun
  obtain ⟨rfl, rfl, hafter⟩ := hrun
  rw [toOption_eq_some] at ho horder hlive
  obtain ⟨m', hlower', h⟩ := Program.exists_survives hsource hfit
  cases hlower.symm.trans hlower'
  obtain ⟨o', ho', h⟩ := h Pass.all
  cases ho.symm.trans ho'
  obtain ⟨order', live', p, horder', hlive', hp, h⟩ := h f (List.mem_of_getElem? hf)
  cases horder.symm.trans horder'
  cases hlive.symm.trans hlive'
  obtain ⟨-, h⟩ := h 0 List.mem_cons_self
  obtain ⟨before, behind, hcode, hspares⟩ :=
    (h _ _ (List.mem_of_getElem? hpoint) {} false).calls rfl
  refine ⟨program, table, m, o, f, live, p, after, before, behind, hsource, hfit, hlower, ho,
    List.mem_of_getElem? hf, hlive, hp, ?_, hcode, hspares⟩
  rw [← Std.ExtTreeSet.mem_toList, hafter]
  exact List.mem_cons_self

end Cinder
