import Cinder.Proofs.Compiler.Control
import Cinder.Proofs.Compiler.Order

/-!
# Nothing is left to simplify

The optimizer stops after a round in which no pass finds anything to do.  Each pass looks
at a block once in a round, while others change the function around it; that the last round
changes nothing is why every block is then simple for all passes at once.
-/

namespace Cinder

open Cinder.Flow

namespace Flow

variable {table : SymbolTable} {f : Function}

def Instruction.Computes (table : SymbolTable) (v : Variable) : Instruction → Prop
  | .binary result .. => result = v
  | .cast result .. => result = v
  | .load result .. => result = v
  | .store destination .. => destination = v ∧ table.isTemporary v.symbol = true
  | _ => False

/-- A block of a function that no pass could make any simpler. -/
structure Block.Simple (table : SymbolTable) (f : Function) (block : Block) : Prop where
  /-- Operations on constants are left only if they have no value. -/
  binary : ∀ {result a op b operandTy resultTy},
    .binary result (.constant a) op (.constant b) operandTy resultTy ∈ block.instructions →
      a.binary op b = none
  cast : ∀ {result c sourceTy targetTy},
    .cast result (.constant c) sourceTy targetTy ∉ block.instructions
  branch : ∀ {c target}, .branch (.constant c) target ∉ block.instructions
  /-- No operand stands for a constant that the block stores into a temporary. -/
  operands : ∀ {i v}, i ∈ block.instructions → .var v ∈ i.replaceable →
    table.isTemporary v.symbol = true → ∀ {c ty}, .store v (.constant c) ty ∉ block.instructions
  /-- What is computed is read, and in the same block. -/
  read : ∀ {i v}, i ∈ block.instructions → i.Computes table v →
    ∃ k ∈ block.instructions, v ∈ k.uses
  last : ∀ {done} {i : Instruction} {rest}, block.instructions = done ++ i :: rest →
    i.isTerminator = true → rest = []
  /-- No link leads to a block that only jumps. -/
  links : ∀ {n other}, block.next = some n ∨ block.branch = some n → f.block? n = some other →
    ∀ {j target}, other.instructions ≠ [.label j, .goto target]

/-! ## Blocks that a pass leaves as they are -/

variable {i : Instruction} {block : Block} {id : BlockId}

theorem Instruction.Computes.pure {v : Variable} (h : i.Computes table v) :
    i.hasSideEffect table = false ∧ i.definition = some v := by
  cases i with
  | binary => exact ⟨rfl, congrArg some h⟩
  | cast => exact ⟨rfl, congrArg some h⟩
  | load => exact ⟨rfl, congrArg some h⟩
  | store destination value ty =>
    obtain ⟨rfl, htemp⟩ := h
    exact ⟨by rw [hasSideEffect, htemp]; rfl, rfl⟩
  | _ => cases h

theorem eq_self_of_map_eq_self {α : Type} {g : α → α} {l : List α} (h : l.map g = l) :
    ∀ a ∈ l, g a = a := by
  rw [← List.map_inj_left, h, List.map_id']

theorem Block.fold?_eq_none_of_fold (h : block.fold = block) (hi : i ∈ block.instructions) :
    i.fold? = none := by
  have hfold : i.fold = i := eq_self_of_map_eq_self (congrArg Block.instructions h) i hi
  cases hnew : i.fold? with
  | none => rfl
  | some new =>
    rw [Instruction.fold, hnew, Option.getD_some] at hfold
    subst hfold
    -- what an instruction is folded to is a store, which is not folded again
    unfold Instruction.fold? at hnew
    split at hnew
    · obtain ⟨_, -, heq⟩ := Option.map_eq_some_iff.1 hnew
      cases heq
    · cases hnew
    · cases hnew

theorem Block.not_mem_store_of_propagate (h : block.propagate table = block)
    (hi : i ∈ block.instructions) {v : Variable} (hv : .var v ∈ i.replaceable)
    (htemp : table.isTemporary v.symbol = true) {c : Constant} {ty : Ty} :
    .store v (.constant c) ty ∉ block.instructions := by
  intro hstore
  have hsame : i.mapReplaceable (Operand.propagate (block.known table)) = i :=
    eq_self_of_map_eq_self (congrArg Block.instructions h) i hi
  have hoperands := congrArg Instruction.replaceable hsame
  rw [Instruction.replaceable_mapReplaceable] at hoperands
  have hkept := eq_self_of_map_eq_self hoperands _ hv
  have hknown : (v, c) ∈ block.known table := by
    refine List.mem_reverse.2 (List.mem_filterMap.2 ⟨_, hstore, ?_⟩)
    rw [Instruction.knowledge?, if_pos htemp]
  have hlookup : ((block.known table).lookup v).isSome = true :=
    List.lookup_isSome_iff.2 ⟨_, hknown, beq_self_eq_true _⟩
  rw [Operand.propagate] at hkept
  obtain ⟨d, hd⟩ := Option.isSome_iff_exists.1 hlookup
  rw [hd] at hkept
  cases hkept

theorem Block.Agrees.rest_eq_nil {exit : BlockId} (h : block.Agrees exit id)
    {done rest : List Instruction} (hsplit : block.instructions = done ++ i :: rest)
    (hi : i.isTerminator = true) : rest = [] := by
  by_contra hne
  have hmem : i ∈ block.instructions.dropLast := by
    rw [hsplit, List.dropLast_append_of_ne_nil (List.cons_ne_nil i rest),
      List.dropLast_cons_of_ne_nil hne]
    simp
  have hjump := h.consistent.jumps i hmem
  cases i with
  | goto => cases hjump
  | ret => cases hjump
  | _ => cases hi

theorem Function.Settled.simple (hf : f.Standard table) (hs : f.Settled table)
    (hid : id ∈ f.preorder) (hb : f.block? id = some block) :
    block.Simple table f where
  binary hi := by
    have hnone := Block.fold?_eq_none_of_fold (hs.idle hid hb .folding) hi
    exact Option.map_eq_none_iff.1 hnone
  cast hi := by cases Block.fold?_eq_none_of_fold (hs.idle hid hb .folding) hi
  branch := decideBranch_eq_none.1 (hs.idle hid hb .branches).1 _ _
  operands hi hv htemp := Block.not_mem_store_of_propagate (hs.idle hid hb .propagation) hi hv htemp
  read hi h := hs.exists_read hf hid hb hi h.pure.1 h.pure.2
  last hsplit hi := (hf.wellFormed.agrees hb).rest_eq_nil hsplit hi
  links {n other} hlink hother j target heq := by
    have hn : n ∈ block.successors := by
      rcases hlink with h | h <;> simp [Block.successors, h]
    have hproxy : f.isProxy n = false := by
      refine hf.acyclic.isProxy_of_destination? hf.wellFormed.agrees hf.wellFormed.linked
        (lt_size_of_block? hother) ((hs.idle hid hb .branches).2 n hn)
    rw [isProxy_of_block? hother, Block.proxyTarget?, heq] at hproxy
    cases hproxy

theorem Function.Standard.reachable (hf : f.Standard table) (hid : id ∈ f.preorder) :
    f.Reachable id := by
  rcases List.mem_append.1 hid with hid | hid
  · exact reachable_of_mem_interior hid
  · rw [List.mem_singleton.1 hid]
    exact hf.acyclic.reaches_exit hf.wellFormed.agrees hf.wellFormed.linked
      hf.wellFormed.linked.entry

/-- Running all passes until nothing changes leaves simple blocks only. -/
theorem Module.Standard.exists_optimize_simple {m : Module} (hm : m.Standard) {passes : List Pass}
    (hall : ∀ pass, pass ∈ passes) :
    ∃ o, m.optimize passes = .ok o ∧ ∀ f ∈ o.result.functions, ∃ order, f.order = .ok order ∧
      ∀ id ∈ order, f.Reachable id ∧
        ∃ block, f.block? id = some block ∧ block.Simple o.result.symbols f := by
  obtain ⟨o, ho, hsymbols, hfinishes⟩ := hm.exists_optimize hall
  refine ⟨o, ho, fun g hg => ?_⟩
  obtain ⟨f, hf, hrounds, hsettled⟩ := forall₂_exists_left hfinishes hg
  have hstandard := ((hm f hf).rounds hrounds).1
  have hl := hstandard.wellFormed.linked
  refine ⟨g.preorder, hl.order, fun id hid => ⟨hstandard.reachable hid, ?_⟩⟩
  obtain ⟨block, hb⟩ := Function.exists_block? (Function.lt_size_of_mem_preorder hl.exit hid)
  exact ⟨block, hb, hsymbols ▸ hsettled.simple hstandard hid hb⟩

end Flow

/-- The default passes leave nothing to simplify in an accepted program: in every block of
every function, each kind of simplification has been carried out. -/
theorem Program.exists_simple {text : String} {program : Program.Typed} {table : SymbolTable}
    (hsource : Program.ofSource text = .ok (program, table))
    (hfit : program.Addressable table) :
    ∃ m o, program.lower table = .ok m ∧ m.optimize Pass.all = .ok o ∧
      ∀ f ∈ o.result.functions, ∃ order, f.order = .ok order ∧ ∀ id ∈ order, f.Reachable id ∧
        ∃ block, f.block? id = some block ∧ block.Simple o.result.symbols f := by
  obtain ⟨m, hlower, hm, hproper⟩ := Program.exists_lower hsource hfit
  have hstandard := Program.standard_of_lower hsource hlower hm hproper
  have hall : ∀ pass, pass ∈ Pass.all := fun pass => by cases pass <;> decide
  obtain ⟨o, ho, hsimple⟩ := hstandard.exists_optimize_simple hall
  exact ⟨m, o, hlower, ho, hsimple⟩

/-- A division by zero stays because it has no value. -/
theorem Program.exists_simple_quotient :
    ∃ program table m o f block,
      Program.ofSource "fun f() @u8:\n    if 1 < 2:\n        return 1 / (3 - 3)\n    return 2\n" =
          .ok (program, table) ∧
        program.Addressable table ∧ program.lower table = .ok m ∧ m.optimize Pass.all = .ok o ∧
        f ∈ o.result.functions ∧ f.block? 2 = some block ∧
        .binary ⟨4, 0⟩ (.constant (.int .w8 false 1)) .div (.constant (.int .w8 false 0))
          Ty.u8 Ty.u8 ∈ block.instructions ∧
        block.Simple o.result.symbols f := by
  generalize htext :
    "fun f() @u8:\n    if 1 < 2:\n        return 1 / (3 - 3)\n    return 2\n" = text
  have hrun : (Program.examine text fun _ m => (m.optimize Pass.all).toOption.bind fun o =>
      o.result.functions.head?.map fun f => (f.order.toOption, (f.instructionsOf 2)[1]?)) =
      some (15, some [0, 2, 1], some (.binary ⟨4, 0⟩ (.constant (.int .w8 false 1)) .div
        (.constant (.int .w8 false 0)) Ty.u8 Ty.u8)) := by
    rw [← htext, Program.examine, Program.ofSource, Program.parse, tokenize_ofList]
    decide +kernel
  obtain ⟨program, table, m, hsource, hfit, hlower, -, hrun⟩ :=
    Program.exists_of_examine hrun (by decide)
  obtain ⟨o, ho, hrun⟩ := Option.bind_eq_some_iff.1 hrun
  obtain ⟨f, hf, hrun⟩ := Option.map_eq_some_iff.1 hrun
  simp only [Prod.mk.injEq] at hrun
  obtain ⟨horder, hquotient⟩ := hrun
  rw [toOption_eq_some] at ho horder
  have hf := List.mem_of_mem_head? hf
  obtain ⟨_, _, hlower', ho', hsimple⟩ := Program.exists_simple hsource hfit
  cases hlower.symm.trans hlower'
  cases ho.symm.trans ho'
  obtain ⟨_, horder', hblocks⟩ := hsimple f hf
  cases horder.symm.trans horder'
  obtain ⟨-, block, hb, hblock⟩ := hblocks 2 (by decide)
  rw [Function.instructionsOf_of_block? hb] at hquotient
  exact ⟨program, table, m, o, f, block, hsource, hfit, hlower, ho, hf, hb,
    List.mem_of_getElem? hquotient, hblock⟩

end Cinder
