import Cinder.Flow.Lower
import Cinder.Proofs.Except
import Cinder.Proofs.Flow.Agreement
import Cinder.Proofs.Program.Scoping
import Cinder.Proofs.SymbolTable

/-!
# What lowering does to a draft

Lowering a statement comes down to a few steps that add straight code to the
current block, end it, or go on in another one.  Whatever holds of drafts is
shown for these steps.
-/

namespace Cinder

abbrev Expr.Typed := Expr SymbolId (Option Ty)

abbrev Statement.Typed := Statement SymbolId (Option Ty)

abbrev Block.Typed := Block SymbolId (Option Ty)

abbrev Definition.Typed := Definition SymbolId (Option Ty)

namespace Flow

/-! ## Straight code -/

def definitions (l : List Instruction) : List Variable :=
  l.filterMap Instruction.definition

@[simp] theorem definitions_append (l l' : List Instruction) :
    definitions (l ++ l') = definitions l ++ definitions l' := by
  simp [definitions]

/-- Code that computes values in new temporaries, from slots and from temporaries
of its own, and stores them in slots. -/
inductive Straight (slots : Slots) (returnSlot : Option Variable) :
    Supply → List Instruction → Supply → Prop where
  | nil (supply) : Straight slots returnSlot supply [] supply
  | load {supply l supply' source ty} (h : Straight slots returnSlot supply l supply')
    (hsource : source ∈ slots.map Prod.snd) :
    Straight slots returnSlot supply (l ++ [Instruction.load (supply'.temporary ty).1 source ty])
      (supply'.temporary ty).2
  | compute {supply l supply' i ty} (h : Straight slots returnSlot supply l supply')
    (hplain : Instruction.isPlain i = true)
    (hdefinition : i.definition = some (supply'.temporary ty).1)
    (huses : ∀ v ∈ i.uses, v ∈ definitions l) :
    Straight slots returnSlot supply (l ++ [i]) (supply'.temporary ty).2
  | call {supply l supply' callee arguments} (h : Straight slots returnSlot supply l supply')
    (huses : ∀ v, Operand.var v ∈ arguments → v ∈ definitions l) :
    Straight slots returnSlot supply (l ++ [Instruction.call none callee arguments]) supply'
  | store {supply l supply' slot value ty} (h : Straight slots returnSlot supply l supply')
    (hslot : slot ∈ slots.map Prod.snd ∨ returnSlot = some slot)
    (hvalue : ∀ v, value = Operand.var v → v ∈ definitions l) :
    Straight slots returnSlot supply (l ++ [Instruction.store slot value ty]) supply'

variable {slots : Slots} {returnSlot : Option Variable}

variable {l l' : List Instruction} {v : Variable}

theorem Straight.append {supply supply' supply'' : Supply}
    (h : Straight slots returnSlot supply l supply')
    (h' : Straight slots returnSlot supply' l' supply'') :
    Straight slots returnSlot supply (l ++ l') supply'' := by
  have hright : ∀ {k : List Instruction} {v : Variable}, v ∈ definitions k →
      v ∈ definitions (l ++ k) := by
    intro k v hv
    rw [definitions_append]
    exact List.mem_append_right _ hv
  induction h' with
  | nil => rwa [List.append_nil]
  | load _ hsource ih =>
    rw [← List.append_assoc]
    exact ih.load hsource
  | compute _ hplain hdefinition huses ih =>
    rw [← List.append_assoc]
    exact ih.compute hplain hdefinition fun v hv => hright (huses v hv)
  | call _ huses ih =>
    rw [← List.append_assoc]
    exact ih.call fun v hv => hright (huses v hv)
  | store _ hslot hvalue ih =>
    rw [← List.append_assoc]
    exact ih.store hslot fun v hv => hright (hvalue v hv)

/-! ## Expressions -/

theorem Slots.mem_of_find {table : SymbolTable} {symbol : SymbolId} {slot : Variable}
    (h : slots.find table symbol = .ok slot) : slot ∈ slots.map Prod.snd := by
  unfold Slots.find at h
  split at h
  · rename_i hlookup
    cases h
    obtain ⟨l, l', hsplit, -⟩ := List.lookup_eq_some_iff.1 hlookup
    rw [hsplit]
    simp
  · cases h

theorem mem_definitions_append_left (h : v ∈ definitions l) : v ∈ definitions (l ++ l') := by
  rw [definitions_append]
  exact List.mem_append_left _ h

theorem mem_definitions_append_right (h : v ∈ definitions l') : v ∈ definitions (l ++ l') := by
  rw [definitions_append]
  exact List.mem_append_right _ h

theorem mem_definitions_snoc {i : Instruction} :
    v ∈ definitions (l ++ [i]) ↔ v ∈ definitions l ∨ i.definition = some v := by
  simp [definitions]

theorem mem_definitions_last {i : Instruction} (h : i.definition = some v) :
    v ∈ definitions (l ++ [i]) :=
  mem_definitions_snoc.2 (.inr h)

/-- Straight code that leaves the value of an expression in an operand. -/
structure Code.Straight (slots : Slots) (returnSlot : Option Variable) (supply : Supply)
    (code : Code) : Prop where
  straight : Flow.Straight slots returnSlot supply code.instructions code.supply
  value : ∀ v, code.value = .var v → v ∈ definitions code.instructions

theorem Straight.computed {supply supply' : Supply} {i : Instruction} {ty : Ty}
    (h : Straight slots returnSlot supply l supply') (hplain : i.isPlain = true)
    (hdefinition : i.definition = some (supply'.temporary ty).1)
    (huses : ∀ v, .var v ∈ i.operands → v ∈ definitions l) :
    Code.Straight slots returnSlot supply
      ⟨l ++ [i], .var (supply'.temporary ty).1, (supply'.temporary ty).2⟩ := by
  refine ⟨h.compute hplain hdefinition fun v hv => huses v (Instruction.mem_uses.1 hv), ?_⟩
  rintro v ⟨⟩
  exact mem_definitions_last hdefinition

end Flow

open Cinder.Flow

namespace Expr

variable {slots : Slots}

mutual

theorem straight_of_lower (returnSlot : Option Variable) :
    ∀ {expr : Expr.Typed} {supply : Supply} {code : Code},
      expr.lower slots supply = .ok code → code.Straight slots returnSlot supply
  | .literal .., supply, _, h => by
    rw [lower] at h
    obtain ⟨ty, -, h⟩ := bind_eq_ok.1 h
    obtain ⟨c, -, h⟩ := bind_eq_ok.1 h
    cases h
    exact ⟨.nil supply, by simp⟩
  | .ident .., supply, _, h => by
    rw [lower] at h
    obtain ⟨ty, -, h⟩ := bind_eq_ok.1 h
    obtain ⟨slot, hslot, h⟩ := bind_eq_ok.1 h
    cases h
    refine ⟨(Straight.nil supply).load (Slots.mem_of_find hslot), ?_⟩
    rintro v ⟨⟩
    exact mem_definitions_last (l := []) rfl
  | .call .., supply, _, h => by
    rw [lower] at h
    obtain ⟨ty, -, h⟩ := bind_eq_ok.1 h
    obtain ⟨⟨instructions, values, supply'⟩, harguments, h⟩ := bind_eq_ok.1 h
    obtain ⟨returnType, -, h⟩ := bind_eq_ok.1 h
    obtain ⟨hstraight, hvalues⟩ := straight_of_lowerAll returnSlot harguments
    cases returnType with
    | none => cases h
    | some ty =>
      cases h
      exact hstraight.computed rfl rfl hvalues
  | .binary .., supply, _, h => by
    rw [lower] at h
    obtain ⟨ty, -, h⟩ := bind_eq_ok.1 h
    obtain ⟨operandTy, -, h⟩ := bind_eq_ok.1 h
    obtain ⟨lhs, hlhs, h⟩ := bind_eq_ok.1 h
    obtain ⟨rhs, hrhs, h⟩ := bind_eq_ok.1 h
    cases h
    have hl := straight_of_lower returnSlot hlhs
    have hr := straight_of_lower returnSlot hrhs
    refine (hl.straight.append hr.straight).computed rfl rfl fun v hmem => ?_
    rcases List.mem_pair.1 hmem with hmem | hmem
    · exact mem_definitions_append_left (hl.value v hmem.symm)
    · exact mem_definitions_append_right (hr.value v hmem.symm)
  | .negate .., supply, _, h => by
    rw [lower] at h
    obtain ⟨ty, -, h⟩ := bind_eq_ok.1 h
    obtain ⟨zero, -, h⟩ := bind_eq_ok.1 h
    obtain ⟨operand, hoperand, h⟩ := bind_eq_ok.1 h
    cases h
    have ho := straight_of_lower returnSlot hoperand
    refine ho.straight.computed rfl rfl fun v hmem => ?_
    rcases List.mem_pair.1 hmem with hmem | hmem
    · cases hmem
    · exact ho.value v hmem.symm
  | .cast .., supply, _, h => by
    rw [lower] at h
    obtain ⟨ty, -, h⟩ := bind_eq_ok.1 h
    obtain ⟨sourceTy, -, h⟩ := bind_eq_ok.1 h
    obtain ⟨operand, hoperand, h⟩ := bind_eq_ok.1 h
    cases h
    have ho := straight_of_lower returnSlot hoperand
    exact ho.straight.computed rfl rfl fun v hmem => ho.value v (List.mem_singleton.1 hmem).symm

theorem straight_of_lowerAll (returnSlot : Option Variable) :
    ∀ {exprs : List Expr.Typed} {supply : Supply} {result},
      lowerAll slots supply exprs = .ok result →
      Straight slots returnSlot supply result.1 result.2.2 ∧
        ∀ v, Operand.var v ∈ result.2.1 → v ∈ definitions result.1
  | [], supply, _, h => by
    cases h
    exact ⟨.nil supply, by simp⟩
  | expr :: rest, supply, _, h => by
    rw [lowerAll] at h
    obtain ⟨code, hcode, h⟩ := bind_eq_ok.1 h
    obtain ⟨⟨instructions, values, supply'⟩, hrest, h⟩ := bind_eq_ok.1 h
    cases h
    have hfirst := straight_of_lower returnSlot hcode
    obtain ⟨hstraight, hvalues⟩ := straight_of_lowerAll returnSlot hrest
    refine ⟨hfirst.straight.append hstraight, fun v hv => ?_⟩
    rcases List.mem_cons.1 hv with hv | hv
    · exact mem_definitions_append_left (hfirst.value v hv.symm)
    · exact mem_definitions_append_right (hvalues v hv)

end

theorem straight_of_lowerEffect (returnSlot : Option Variable) {expr : Expr.Typed}
    {supply : Supply} {result : List Instruction × Supply}
    (h : expr.lowerEffect slots supply = .ok result) :
    Straight slots returnSlot supply result.1 result.2 := by
  cases expr with
  | call span ty callee symbol arguments =>
    obtain ⟨⟨instructions, values, supply'⟩, harguments, h⟩ := bind_eq_ok.1 h
    obtain ⟨returnType, -, h⟩ := bind_eq_ok.1 h
    obtain ⟨hstraight, hvalues⟩ := straight_of_lowerAll returnSlot harguments
    cases returnType with
    | none =>
      cases h
      exact hstraight.call hvalues
    | some ty =>
      cases h
      exact hstraight.compute rfl rfl fun v hv => hvalues v (Instruction.mem_uses.1 hv)
  | _ =>
    obtain ⟨code, hcode, h⟩ := bind_eq_ok.1 h
    cases h
    exact (straight_of_lower returnSlot hcode).straight

end Expr

namespace Flow

/-! ## Steps of a draft -/

namespace Function

theorem setBlock_setBlock (f : Function) (id : BlockId) (block new : Block) :
    (f.setBlock id block).setBlock id new = f.setBlock id new := by
  simp [setBlock, Arena.set]

theorem modifyBlock_modifyBlock (f : Function) (id : BlockId) (g h : Block → Block) :
    (f.modifyBlock id g).modifyBlock id h = f.modifyBlock id fun block => h (g block) := by
  cases hb : f.block? id with
  | none =>
    have hsame : ∀ change, f.modifyBlock id change = f := fun change => by rw [modifyBlock, hb]
    rw [hsame, hsame, hsame]
  | some block =>
    rw [modifyBlock_of_block? hb, modifyBlock_of_block? (block?_setBlock_self hb _),
      modifyBlock_of_block? hb, setBlock_setBlock]

section

variable (f : Function) (id : BlockId) (change : Block → Block)

theorem modifyBlock_cases : f.modifyBlock id change = f ∨
    ∃ block, f.block? id = some block ∧ f.modifyBlock id change = f.setBlock id (change block) := by
  cases hb : f.block? id with
  | none => exact .inl (by rw [modifyBlock, hb])
  | some block => exact .inr ⟨block, rfl, modifyBlock_of_block? hb change⟩

@[simp] theorem modifyBlock_exit : (f.modifyBlock id change).exit = f.exit := by
  rcases f.modifyBlock_cases id change with h | ⟨block, -, h⟩ <;> rw [h]
  rfl

@[simp] theorem modifyBlock_entry : (f.modifyBlock id change).entry = f.entry := by
  rcases f.modifyBlock_cases id change with h | ⟨block, -, h⟩ <;> rw [h]
  rfl

@[simp] theorem modifyBlock_size : (f.modifyBlock id change).blocks.size = f.blocks.size := by
  rcases f.modifyBlock_cases id change with h | ⟨block, -, h⟩ <;> rw [h]
  exact setBlock_size ..

end

end Function

namespace Draft

def extend (draft : Draft) (l : List Instruction) (supply : Supply) : Draft :=
  { draft.emit l with supply }

def bindSlot (draft : Draft) (symbol : SymbolId) (slot : Variable) : Draft :=
  { draft with slots := (symbol, slot) :: draft.slots }

def bindParameter (draft : Draft) (parameter : Parameter SymbolId) (ty : Ty) : Draft :=
  let (slot, supply) := draft.supply.slot s!"{parameter.name.name}.addr" ty .parameterSlot
  let incoming : Variable := { symbol := parameter.symbol }
  let draft := { draft with supply }.emit [.alloca slot ty, .store slot (.var incoming) ty]
  { draft with
    function := { draft.function with parameters := draft.function.parameters ++ [incoming] }
    slots := (parameter.symbol, slot) :: draft.slots }

theorem declareParameter_eq (draft : Draft) (parameter : Parameter SymbolId) :
    draft.declareParameter parameter =
      (draft.supply.symbols.typeOf parameter.symbol >>= fun ty =>
        .ok (draft.bindParameter parameter ty)) :=
  rfl

/-- The block that is entered if a condition holds, the block that is entered if
not, and the block behind them both. -/
def forkTargets (draft : Draft) : BlockId × BlockId × BlockId :=
  (draft.function.blocks.next, draft.function.addBlock.blocks.next,
    draft.function.addBlock.addBlock.blocks.next)

/-- Adds three blocks and goes on in the first of them if a condition holds. -/
def fork (draft : Draft) (condition : Operand) : Draft :=
  let (taken, otherwise, _) := draft.forkTargets
  ({ draft with function := draft.function.addBlock.addBlock.addBlock }.split condition taken
    otherwise).enter taken

@[simp] theorem exit_emit (draft : Draft) (l : List Instruction) :
    (draft.emit l).function.exit = draft.function.exit :=
  Function.modifyBlock_exit ..

@[simp] theorem exit_extend (draft : Draft) (l : List Instruction) (supply : Supply) :
    (draft.extend l supply).function.exit = draft.function.exit :=
  Function.modifyBlock_exit ..

theorem emit_emit (draft : Draft) (l l' : List Instruction) :
    (draft.emit l).emit l' = draft.emit (l ++ l') := by
  simp only [emit, Function.modifyBlock_modifyBlock, List.append_assoc]

def save (draft : Draft) (code : Code) (slot : Variable) (ty : Ty) : Draft :=
  draft.extend (code.instructions ++ [Instruction.store slot code.value ty]) code.supply

theorem take_emit (draft : Draft) (code : Code) (slot : Variable) (ty : Ty) :
    (draft.take code).emit [.store slot code.value ty] = draft.save code slot ty := by
  rw [save, extend, ← emit_emit]
  rfl

end Draft

/-- A draft, the blocks that wait to be filled, and whether the current block can
take more instructions. -/
structure Stage where
  pending : List BlockId
  draft : Draft
  isOpen : Bool

/-- One step of lowering a statement whose declarations are numbered from `first`
on. -/
inductive Stage.Step (first : Nat) : Stage → Stage → Prop where
  | declare {pending draft symbol name ty} (hfirst : first ≤ symbol)
    (h : draft.supply.symbols.get? symbol = some ⟨name, .var (some ty) .user⟩) :
    Step first ⟨pending, draft, true⟩
      ⟨pending, (draft.emit [.alloca { symbol } ty]).bindSlot symbol { symbol }, true⟩
  | extend {pending draft l supply}
    (h : Straight draft.slots draft.returnSlot draft.supply l supply) :
    Step first ⟨pending, draft, true⟩ ⟨pending, draft.extend l supply, true⟩
  /-- Ends the current block with a jump to the exit. -/
  | leave {pending draft} :
    Step first ⟨pending, draft, true⟩ ⟨pending, draft.jump draft.function.exit, false⟩
  /-- Ends the current block with a conditional jump. -/
  | fork {pending draft l supply condition}
    (h : Straight draft.slots draft.returnSlot draft.supply l supply)
    (hcondition : ∀ v, condition = .var v → v ∈ definitions l) :
    Step first ⟨pending, draft, true⟩
      ⟨(draft.extend l supply).forkTargets.2.1 :: (draft.extend l supply).forkTargets.2.2 ::
        pending, (draft.extend l supply).fork condition, true⟩
  /-- Goes on in the block that has waited for the shortest time; the current block
  goes on to a block that waits. -/
  | join {id pending draft isOpen after} (h : after ∈ id :: pending) :
    Step first ⟨id :: pending, draft, isOpen⟩ ⟨pending, (draft.jumpIfOpen after).enter id, true⟩

abbrev Stage.Steps (first : Nat) : Stage → Stage → Prop :=
  Relation.ReflTransGen (Stage.Step first)

variable {first : Nat} {s s' : Stage}

theorem Stage.Step.mono {first' : Nat} (hle : first ≤ first') (h : Stage.Step first' s s') :
    Stage.Step first s s' := by
  cases h with
  | declare hfirst h => exact .declare (Nat.le_trans hle hfirst) h
  | extend h => exact .extend h
  | leave => exact .leave
  | fork h hcondition => exact .fork h hcondition
  | join h => exact .join h

theorem Stage.Steps.mono {first' : Nat} (hle : first ≤ first') (h : Stage.Steps first' s s') :
    Stage.Steps first s s' := by
  induction h with
  | refl => exact .refl
  | tail _ h ih => exact ih.tail (h.mono hle)

theorem Stage.Step.save {pending : List BlockId} {draft : Draft} {value : Expr.Typed} {code : Code}
    {slot : Variable} (hcode : value.lower draft.slots draft.supply = .ok code)
    (hslot : slot ∈ draft.slots.map Prod.snd ∨ draft.returnSlot = some slot) (ty : Ty) :
    Stage.Step first ⟨pending, draft, true⟩ ⟨pending, draft.save code slot ty, true⟩ := by
  have hs := Expr.straight_of_lower draft.returnSlot hcode
  exact .extend (hs.straight.store hslot hs.value)

theorem Stage.Step.leave_to {pending : List BlockId} {draft : Draft} {target : BlockId}
    (h : draft.function.exit = target) :
    Stage.Step first ⟨pending, draft, true⟩ ⟨pending, draft.jump target, false⟩ := by
  rw [← h]
  exact .leave

/-! ## Tables of drafts -/

theorem Supply.keeps_temporary (supply : Supply) (ty : Ty) :
    supply.symbols.Keeps (supply.temporary ty).2.symbols :=
  SymbolTable.keeps_declareVariable ..

theorem Straight.keeps {supply supply' : Supply} {l : List Instruction}
    (h : Straight slots returnSlot supply l supply') : supply.symbols.Keeps supply'.symbols := by
  induction h with
  | nil => exact .refl _
  | load _ _ ih => exact ih.trans (Supply.keeps_temporary ..)
  | compute _ _ _ _ ih => exact ih.trans (Supply.keeps_temporary ..)
  | call _ _ ih => exact ih
  | store _ _ _ ih => exact ih

theorem Draft.supply_jumpIfOpen (draft : Draft) (target : BlockId) :
    (draft.jumpIfOpen target).supply = draft.supply := by
  rw [jumpIfOpen]
  split <;> rfl

theorem Stage.Step.keeps (h : Stage.Step first s s') :
    s.draft.supply.symbols.Keeps s'.draft.supply.symbols := by
  cases h with
  | declare hfirst h => exact .refl _
  | extend h => exact h.keeps
  | leave => exact .refl _
  | fork h hcondition => exact h.keeps
  | join h =>
    simp only [Draft.enter, Draft.supply_jumpIfOpen]
    exact .refl _

theorem Stage.Steps.keeps (h : Stage.Steps first s s') :
    s.draft.supply.symbols.Keeps s'.draft.supply.symbols := by
  induction h with
  | refl => exact .refl _
  | tail _ h ih => exact ih.trans h.keeps

end Flow

/-! ## Statements -/

def SymbolTable.Locals (table : SymbolTable) (first count : Nat) : Prop :=
  ∀ id, first ≤ id → id < first + count →
    ∃ name ty, table.get? id = some ⟨name, .var (some ty) .user⟩

theorem SymbolTable.Locals.mono {table : SymbolTable} {first count first' count' : Nat}
    (h : table.Locals first count) (hle : first ≤ first') (hge : first' + count' ≤ first + count) :
    table.Locals first' count' :=
  fun id hid hlt => h id (by omega) (by omega)

def Statement.isReturn {σ τ : Type} : Statement σ τ → Bool
  | .ret .. => true
  | _ => false

/-! ## What a statement is lowered to -/

namespace Statement

variable {draft draft' : Draft} {span : Span} {value : Expr.Typed}

theorem exists_of_lower_declare {decl : Local SymbolId (Option Ty)}
    (h : (Statement.declare decl).lower draft = .ok draft') :
    ∃ ty, draft.supply.symbols.typeOf decl.symbol = .ok ty ∧
      let declared := (draft.emit [.alloca { symbol := decl.symbol } ty]).bindSlot decl.symbol
        { symbol := decl.symbol }
      (decl.initializer = none ∧ draft' = declared ∨
        ∃ value code, decl.initializer = some value ∧
          value.lower declared.slots declared.supply = .ok code ∧
          draft' = declared.save code { symbol := decl.symbol } ty) := by
  rw [lower] at h
  obtain ⟨ty, hty, h⟩ := bind_eq_ok.1 h
  refine ⟨ty, hty, ?_⟩
  split at h
  · rename_i hnone
    exact .inl ⟨hnone, (Except.ok.inj h).symm⟩
  · rename_i value hsome
    obtain ⟨code, hcode, h⟩ := bind_eq_ok.1 h
    rw [Draft.take_emit] at h
    exact .inr ⟨value, code, hsome, hcode, (Except.ok.inj h).symm⟩

theorem slots_of_lower_declare {decl : Local SymbolId (Option Ty)}
    (h : (Statement.declare decl).lower draft = .ok draft') :
    draft'.slots = (decl.symbol, { symbol := decl.symbol }) :: draft.slots := by
  obtain ⟨ty, -, ⟨-, rfl⟩ | ⟨value, code, -, -, rfl⟩⟩ := exists_of_lower_declare h
  · rfl
  · rfl

theorem exists_of_lower_assign {target : Ident} {symbol : SymbolId}
    (h : (Statement.assign span target symbol value).lower draft = .ok draft') :
    ∃ slot ty code, draft.slots.find draft.supply.symbols symbol = .ok slot ∧
      value.lower draft.slots draft.supply = .ok code ∧ draft' = draft.save code slot ty := by
  rw [lower] at h
  obtain ⟨slot, hslot, h⟩ := bind_eq_ok.1 h
  obtain ⟨ty, -, h⟩ := bind_eq_ok.1 h
  obtain ⟨code, hcode, h⟩ := bind_eq_ok.1 h
  rw [Draft.take_emit] at h
  exact ⟨slot, ty, code, hslot, hcode, (Except.ok.inj h).symm⟩

theorem exists_of_lower_ret (h : (Statement.ret span (some value)).lower draft = .ok draft') :
    ∃ slot ty code, draft.returnSlot = some slot ∧
      value.lower draft.slots draft.supply = .ok code ∧
      draft' = (draft.save code slot ty).jump draft.function.exit := by
  rw [lower] at h
  split at h
  · cases h
  · rename_i slot hslot
    obtain ⟨ty, -, h⟩ := bind_eq_ok.1 h
    obtain ⟨code, hcode, h⟩ := bind_eq_ok.1 h
    rw [Draft.take_emit] at h
    exact ⟨slot, ty, code, hslot, hcode, (Except.ok.inj h).symm⟩

end Statement

theorem Statement.lower_ifThen (draft : Draft) (span : Span)
    (condition : Expr.Typed) (positive : Block.Typed) :
    (Statement.ifThen span condition positive).lower draft = (do
      let code ← condition.lower draft.slots draft.supply
      let forked := draft.extend code.instructions code.supply
      let after := forked.forkTargets.2.2
      let draft ← positive.lower (forked.fork code.value)
      return (((draft.jumpIfOpen after).enter forked.forkTargets.2.1).jumpIfOpen after).enter
        after) := by
  rw [Statement.lower]
  rfl

theorem Statement.lower_ifElse (draft : Draft) (span : Span)
    (condition : Expr.Typed) (positive negative : Block.Typed) :
    (Statement.ifElse span condition positive negative).lower draft = (do
      let code ← condition.lower draft.slots draft.supply
      let forked := draft.extend code.instructions code.supply
      let after := forked.forkTargets.2.2
      let draft ← positive.lower (forked.fork code.value)
      let draft ← negative.lower ((draft.jumpIfOpen after).enter forked.forkTargets.2.1)
      return (draft.jumpIfOpen after).enter after) := by
  rw [Statement.lower]
  rfl

/-- A conditional with one block has nothing to do in the other one. -/
theorem Statement.lower_ifThen_eq (draft : Draft) (span : Span) (condition : Expr.Typed)
    (positive : Block.Typed) :
    (Statement.ifThen span condition positive).lower draft =
      (Statement.ifElse span condition positive (.mk span [])).lower draft := by
  rw [Statement.lower_ifThen, Statement.lower_ifElse]
  rfl

theorem Statement.lowerAll_cons {draft : Draft} {statement : Statement.Typed}
    {rest : List Statement.Typed} (h : statement.isReturn = false) :
    Statement.lowerAll draft (statement :: rest) =
      (statement.lower draft >>= fun draft => Statement.lowerAll draft rest) := by
  cases statement with
  | ret => cases h
  | _ => rw [Statement.lowerAll]; exact fun _ _ h => nomatch h

theorem Expr.keeps_of_lower {slots : Slots} {expr : Expr.Typed} {supply : Supply}
    {code : Code} (h : expr.lower slots supply = .ok code) :
    supply.symbols.Keeps code.supply.symbols :=
  (Expr.straight_of_lower none h).straight.keeps

mutual

theorem Statement.keeps_of_lower :
    ∀ {statement : Statement.Typed} {draft draft' : Draft},
      statement.lower draft = .ok draft' → draft.supply.symbols.Keeps draft'.supply.symbols
  | .declare _, _, _, h => by
    obtain ⟨_, -, ⟨-, rfl⟩ | ⟨_, _, -, hcode, rfl⟩⟩ := Statement.exists_of_lower_declare h
    · exact .refl _
    · exact Expr.keeps_of_lower hcode
  | .assign .., _, _, h => by
    obtain ⟨_, _, _, -, hcode, rfl⟩ := Statement.exists_of_lower_assign h
    exact Expr.keeps_of_lower hcode
  | .ret _ none, _, _, h => by
    rw [Statement.lower] at h
    cases h
    exact .refl _
  | .ret _ (some value), _, _, h => by
    obtain ⟨_, _, _, -, hcode, rfl⟩ := Statement.exists_of_lower_ret h
    exact Expr.keeps_of_lower hcode
  | .ifThen .., _, _, h => by
    rw [Statement.lower_ifThen] at h
    obtain ⟨code, hcode, h⟩ := bind_eq_ok.1 h
    obtain ⟨draft₁, hpositive, h⟩ := bind_eq_ok.1 h
    cases h
    have hkeeps : code.supply.symbols.Keeps draft₁.supply.symbols := Block.keeps_of_lower hpositive
    simp only [Draft.enter, Draft.supply_jumpIfOpen]
    exact (Expr.keeps_of_lower hcode).trans hkeeps
  | .ifElse .., _, _, h => by
    rw [Statement.lower_ifElse] at h
    obtain ⟨code, hcode, h⟩ := bind_eq_ok.1 h
    obtain ⟨draft₁, hpositive, h⟩ := bind_eq_ok.1 h
    obtain ⟨draft₂, hnegative, h⟩ := bind_eq_ok.1 h
    cases h
    have hkeeps₁ : code.supply.symbols.Keeps draft₁.supply.symbols := Block.keeps_of_lower hpositive
    have hkeeps₂ := Block.keeps_of_lower hnegative
    simp only [Draft.enter, Draft.supply_jumpIfOpen] at hkeeps₂ ⊢
    exact ((Expr.keeps_of_lower hcode).trans hkeeps₁).trans hkeeps₂
  | .expr .., _, _, h => by
    rw [Statement.lower] at h
    obtain ⟨⟨instructions, supply⟩, heffect, h⟩ := bind_eq_ok.1 h
    cases h
    exact (Expr.straight_of_lowerEffect none heffect).keeps

theorem Block.keeps_of_lower :
    ∀ {block : Block.Typed} {draft draft' : Draft},
      block.lower draft = .ok draft' → draft.supply.symbols.Keeps draft'.supply.symbols
  | .mk _ statements, _, _, h => by
    rw [Block.lower] at h
    exact Statement.keeps_of_lowerAll h

theorem Statement.keeps_of_lowerAll :
    ∀ {statements : List Statement.Typed} {draft draft' : Draft},
      Statement.lowerAll draft statements = .ok draft' →
        draft.supply.symbols.Keeps draft'.supply.symbols
  | [], _, _, h => by
    cases h
    exact .refl _
  | statement :: rest, _, _, h => by
    cases hret : statement.isReturn with
    | true =>
      cases statement with
      | ret span value =>
        rw [Statement.lowerAll] at h
        exact Statement.keeps_of_lower h
      | _ => cases hret
    | false =>
      rw [Statement.lowerAll_cons hret] at h
      obtain ⟨draft₁, hfirst, h⟩ := bind_eq_ok.1 h
      exact (Statement.keeps_of_lower hfirst).trans (Statement.keeps_of_lowerAll h)

end

section

variable {table : SymbolTable}

mutual

theorem Statement.steps_of_lower {scope : Scope} {next : Nat} {draft draft' : Draft}
    (hkeeps : table.Keeps draft.supply.symbols) (pending : List BlockId) :
    ∀ {statement : Statement.Typed}, statement.Bound scope next →
      table.Locals next statement.declarations → statement.lower draft = .ok draft' →
        Stage.Steps next ⟨pending, draft, true⟩ ⟨pending, draft', !statement.isReturn⟩
  | .declare decl, hb, hlocals, h => by
    obtain ⟨ty, hty, h⟩ := Statement.exists_of_lower_declare h
    obtain ⟨name, ty', hget⟩ : ∃ name ty',
        draft.supply.symbols.get? decl.symbol = some ⟨name, .var (some ty') .user⟩ := by
      obtain ⟨name, ty', hget⟩ := hlocals next (Nat.le_refl _) (Nat.lt_succ_self _)
      rw [hb.2]
      exact ⟨name, ty', hkeeps.get hget⟩
    obtain ⟨name', origin, hget'⟩ := SymbolTable.type?_eq_some.1 (SymbolTable.typeOf_eq_ok.1 hty)
    rw [hget] at hget'
    cases hget'
    have hdeclare : Stage.Step next ⟨pending, draft, true⟩ _ :=
      .declare (Nat.le_of_eq hb.2.symm) hget
    obtain ⟨-, rfl⟩ | ⟨_, code, -, hcode, rfl⟩ := h
    · exact .single hdeclare
    · exact .tail (.single hdeclare) (.save hcode (.inl List.mem_cons_self) ty)
  | .assign span target symbol value, hb, _, h => by
    obtain ⟨slot, ty, code, hslot, hcode, rfl⟩ := Statement.exists_of_lower_assign h
    exact .single (.save hcode (.inl (Slots.mem_of_find hslot)) ty)
  | .ret span none, _, _, h => by
    rw [Statement.lower] at h
    cases h
    exact .single .leave
  | .ret span (some value), hb, _, h => by
    obtain ⟨slot, ty, code, hslot, hcode, rfl⟩ := Statement.exists_of_lower_ret h
    exact .tail (.single (.save hcode (.inr hslot) ty)) (.leave_to (Draft.exit_extend ..))
  | .ifThen span condition positive, hb, hlocals, h => by
    rw [Statement.lower_ifThen] at h
    obtain ⟨code, hcode, h⟩ := bind_eq_ok.1 h
    obtain ⟨draft₁, hpositive, h⟩ := bind_eq_ok.1 h
    cases h
    have hs := Expr.straight_of_lower draft.returnSlot hcode
    have hfork : Stage.Step next ⟨pending, draft, true⟩ _ := .fork hs.straight hs.value
    obtain ⟨isOpen, hpositive⟩ := Block.steps_of_lower (hkeeps.trans hfork.keeps) _ hb.2 hlocals
      hpositive
    refine .tail (.tail (.head hfork hpositive) (.join ?_)) (.join ?_)
    · exact List.mem_cons_of_mem _ List.mem_cons_self
    · exact List.mem_cons_self
  | .ifElse span condition positive negative, hb, hlocals, h => by
    rw [Statement.lower_ifElse] at h
    obtain ⟨code, hcode, h⟩ := bind_eq_ok.1 h
    obtain ⟨draft₁, hpositive, h⟩ := bind_eq_ok.1 h
    obtain ⟨draft₂, hnegative, h⟩ := bind_eq_ok.1 h
    cases h
    have hs := Expr.straight_of_lower draft.returnSlot hcode
    have hfork : Stage.Step next ⟨pending, draft, true⟩ _ := .fork hs.straight hs.value
    have hkeeps₁ := hkeeps.trans hfork.keeps
    obtain ⟨isOpen, hpositive⟩ := Block.steps_of_lower hkeeps₁ _ hb.2.1
      (hlocals.mono (Nat.le_refl _) (Nat.add_le_add_left (Nat.le_add_right ..) _)) hpositive
    have hjoin := @Stage.Step.join next _ _ draft₁ isOpen _ (List.mem_cons_of_mem
      (draft.extend code.instructions code.supply).forkTargets.2.1
      (@List.mem_cons_self _ (draft.extend code.instructions code.supply).forkTargets.2.2
        pending))
    have hkeeps₂ := (hkeeps₁.trans (Stage.Steps.keeps hpositive)).trans hjoin.keeps
    obtain ⟨isOpen', hnegative⟩ := Block.steps_of_lower hkeeps₂ _ hb.2.2
      (hlocals.mono (Nat.le_add_right ..) (Nat.le_of_eq (Nat.add_assoc ..))) hnegative
    have hnegative := Stage.Steps.mono (Nat.le_add_right ..) hnegative
    refine .tail (.trans (.tail (.head hfork hpositive) hjoin) hnegative) (.join ?_)
    exact List.mem_cons_self
  | .expr span value, hb, _, h => by
    rw [Statement.lower] at h
    obtain ⟨⟨instructions, supply⟩, heffect, h⟩ := bind_eq_ok.1 h
    cases h
    exact .single (.extend (Expr.straight_of_lowerEffect draft.returnSlot heffect))

theorem Block.steps_of_lower {scope : Scope} {next : Nat} {draft draft' : Draft}
    (hkeeps : table.Keeps draft.supply.symbols) (pending : List BlockId) :
    ∀ {block : Block.Typed}, block.Bound scope next →
      table.Locals next block.declarations → block.lower draft = .ok draft' →
        ∃ isOpen, Stage.Steps next ⟨pending, draft, true⟩ ⟨pending, draft', isOpen⟩
  | .mk span statements, hb, hlocals, h => by
    rw [Block.lower] at h
    exact Statement.steps_of_lowerAll hkeeps pending hb hlocals h

theorem Statement.steps_of_lowerAll {scope : Scope} {next : Nat} {draft draft' : Draft}
    (hkeeps : table.Keeps draft.supply.symbols) (pending : List BlockId) :
    ∀ {statements : List Statement.Typed},
      Statement.BoundAll scope next statements →
      table.Locals next (Statement.declarationsAll statements) →
      Statement.lowerAll draft statements = .ok draft' →
        ∃ isOpen, Stage.Steps next ⟨pending, draft, true⟩ ⟨pending, draft', isOpen⟩
  | [], _, _, h => by
    cases h
    exact ⟨true, .refl⟩
  | statement :: rest, hb, hlocals, h => by
    have hlocals₁ : table.Locals next statement.declarations :=
      hlocals.mono (Nat.le_refl _) (Nat.add_le_add_left (Nat.le_add_right ..) _)
    cases hret : statement.isReturn with
    | true =>
      cases statement with
      | ret span value =>
        rw [Statement.lowerAll] at h
        exact ⟨_, Statement.steps_of_lower hkeeps pending hb.1 hlocals₁ h⟩
      | _ => cases hret
    | false =>
      rw [Statement.lowerAll_cons hret] at h
      obtain ⟨draft₁, hfirst, h⟩ := bind_eq_ok.1 h
      have hsteps := Statement.steps_of_lower hkeeps pending hb.1 hlocals₁ hfirst
      rw [hret] at hsteps
      obtain ⟨isOpen, hrest⟩ := Statement.steps_of_lowerAll
        (hkeeps.trans (Stage.Steps.keeps hsteps)) pending hb.2
        (hlocals.mono (Nat.le_add_right ..) (Nat.le_of_eq (Nat.add_assoc ..))) h
      exact ⟨isOpen, .trans hsteps (Stage.Steps.mono (Nat.le_add_right ..) hrest)⟩

end

end

end Cinder
