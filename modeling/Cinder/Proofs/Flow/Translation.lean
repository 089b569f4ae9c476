import Cinder.Proofs.Flow.Functions
import Cinder.Proofs.Flow.Typed
import Cinder.Proofs.Typing.Nodes

/-!
# Lowering of well-typed programs

A well-typed program can always be lowered, to instructions that are typed again:
every name has a slot of its type, every call of a value gives one, and every
constant can be written in its type.  The only limit is the number of handles, and
how many of them a program takes can be read off its text.
-/

namespace Cinder

variable {ty : Ty} {draft' : Draft} {l : List Instruction} {code : Code}

/-! ## Room -/

section

variable {σ τ : Type}

mutual

/-- A bound on the symbols and on the blocks that lowering a statement adds: a
temporary for each node of an expression, and three blocks for each condition. -/
def Statement.extent : Statement σ τ → Nat
  | .declare decl => decl.initializer.elim 0 (·.nodes.length)
  | .assign _ _ _ value => value.nodes.length
  | .ret _ value => value.elim 0 (·.nodes.length)
  | .ifThen _ condition positive => condition.nodes.length + 3 + positive.extent
  | .ifElse _ condition positive negative =>
    condition.nodes.length + 3 + positive.extent + negative.extent
  | .expr _ value => value.nodes.length

def Block.extent : Block σ τ → Nat
  | .mk _ statements => Statement.extentAll statements

def Statement.extentAll : List (Statement σ τ) → Nat
  | [] => 0
  | statement :: rest => statement.extent + Statement.extentAll rest

end

/-- A slot for each parameter and two symbols for the value that is returned; two
blocks for entry and exit. -/
def Definition.extent (definition : Definition σ τ) : Nat :=
  definition.parameters.length + 2 + definition.body.extent

def Program.extent (program : Program σ τ) : Nat :=
  (program.functions.map Definition.extent).sum

end

namespace Flow

/-! ## Expressions -/

def Slots.Cover (slots : Slots) (table : SymbolTable) (scope : Scope) (next : Nat) : Prop :=
  ∀ name id, scope.find? name = some (.var id) → id < next ∧ ∃ ty slot,
    table.type? id = some ty ∧ slots.lookup id = some slot ∧ table.type? slot.symbol = some ty ∧
      table.isTemporary slot.symbol = false

theorem Slots.Cover.keeps {slots : Slots} {table table' : SymbolTable} {scope : Scope} {next : Nat}
    (h : slots.Cover table scope next) (hkeeps : table.Keeps table') :
    slots.Cover table' scope next := by
  intro name id hfind
  obtain ⟨hlt, ty, slot, hty, hlookup, hslot, hlasting⟩ := h name id hfind
  refine ⟨hlt, ty, slot, hkeeps.le.types hty, hlookup, hkeeps.le.types hslot, ?_⟩
  rw [hkeeps.isTemporary (SymbolTable.lt_size_of_type? hslot), hlasting]

namespace Supply

variable {supply : Supply}

section

variable (hfit : supply.symbols.size < UInt32.size)

include hfit

theorem get?_slot (name : String) (ty : Ty) (origin : Origin) :
    (supply.slot name ty origin).2.symbols.get? (supply.slot name ty origin).1.symbol =
      some ⟨name, .var (some ty) origin⟩ := by
  change (supply.symbols.insert _).get? supply.symbols.next = _
  rw [SymbolTable.get?_insert, SymbolTable.next_eq hfit, if_pos rfl]

theorem type?_temporary (ty : Ty) :
    (supply.temporary ty).2.symbols.type? (supply.temporary ty).1.symbol = some ty :=
  SymbolTable.type?_eq_some.2 ⟨_, _, get?_slot hfit _ ty .temporary⟩

theorem isTemporary_temporary (ty : Ty) :
    (supply.temporary ty).2.symbols.isTemporary (supply.temporary ty).1.symbol = true := by
  have hget := get?_slot hfit s!"$tmp{supply.temporaries}" ty .temporary
  change (supply.slot _ ty .temporary).2.symbols.isTemporary _ = true
  simp only [SymbolTable.isTemporary]
  rw [show (supply.temporary ty).1 = (supply.slot s!"$tmp{supply.temporaries}" ty .temporary).1
    from rfl, hget]

end

end Supply

/-- Proper instructions that leave a value of a type in an operand, and take no more
than some room. -/
structure Code.Proper (code : Code) (supply : Supply) (ty : Ty) (room : Nat) : Prop where
  size : code.supply.symbols.size ≤ supply.symbols.size + room
  instructions : ∀ i ∈ code.instructions, i.Proper code.supply.symbols
  value : code.value.HasType code.supply.symbols ty

theorem Code.proper_snoc {supply before : Supply} {i : Instruction} {room : Nat}
    (hfit : before.symbols.size + room ≤ UInt32.size)
    (hsize : supply.symbols.size < before.symbols.size + room)
    (hl : ∀ i ∈ l, i.Proper supply.symbols) (hi : i.Proper (supply.temporary ty).2.symbols) :
    Code.Proper ⟨l ++ [i], .var (supply.temporary ty).1, (supply.temporary ty).2⟩
      before ty room := by
  refine ⟨?_, fun j hj => ?_, Supply.type?_temporary (by omega) ty⟩
  · rw [Supply.size_temporary]
    omega
  · rcases List.mem_append.1 hj with hj | hj
    · exact (hl j hj).keeps (supply.keeps_temporary ty)
    · rw [List.mem_singleton.1 hj]
      exact hi

end Flow

open Cinder.Flow

theorem Literal.exists_lower {literal : Literal} (h : literal.Fits ty) :
    ∃ c, literal.lower ty = .ok c ∧ c.ty = ty := by
  cases literal with
  | boolean value =>
    obtain rfl : ty = .bool := h
    exact ⟨_, rfl, rfl⟩
  | integer value =>
    cases ty with
    | bool => exact absurd rfl h
    | int width signed => exact ⟨_, rfl, rfl⟩
    | float width => cases width <;> exact ⟨_, rfl, rfl⟩
  | float bits =>
    cases ty with
    | float width => cases width <;> exact ⟨_, rfl, rfl⟩
    | _ => cases h

theorem Constant.exists_zero (h : ty ≠ .bool) :
    ∃ c, Constant.zero ty = .ok c ∧ c.ty = ty := by
  cases ty with
  | bool => exact absurd rfl h
  | _ => exact ⟨_, rfl, rfl⟩

namespace Expr

variable {scope : Scope} {slots : Slots} {next : Nat}

theorem keeps_of_lowerAll {exprs : List Expr.Typed} {supply : Supply}
    {result : List Instruction × List Operand × Supply}
    (h : lowerAll slots supply exprs = .ok result) :
    supply.symbols.Keeps result.2.2.symbols :=
  (straight_of_lowerAll none h).1.keeps

mutual

theorem exists_lower : ∀ {expr : Expr.Typed} {ty : Ty} {supply : Supply},
    expr.Bound scope → expr.HasType supply.symbols ty → slots.Cover supply.symbols scope next →
      supply.symbols.size + expr.nodes.length ≤ UInt32.size →
      ∃ code, expr.lower slots supply = .ok code ∧ code.Proper supply ty expr.nodes.length
  | .literal _ _ value, ty, supply, _, htype, _, _ => by
    obtain ⟨c, hc, hty⟩ := Literal.exists_lower htype.2
    refine ⟨⟨[], .constant c, supply⟩, ?_, by simp, by simp, hty⟩
    rw [lower]
    exact bind_eq_ok.2 ⟨ty, valueType_eq_ok.2 htype.ty_eq, bind_eq_ok.2 ⟨c, hc, rfl⟩⟩
  | .ident _ _ name symbol, ty, supply, hbound, htype, hcover, hfit => by
    change scope.find? name.name = some (.var symbol) at hbound
    obtain ⟨-, ty', slot, hty, hlookup, hslot, hlasting⟩ := hcover _ _ hbound
    cases hty.symm.trans htype.2
    simp only [nodes, List.length_singleton] at hfit ⊢
    have hfind : slots.find supply.symbols symbol = .ok slot := by rw [Slots.find, hlookup]
    have hlt : supply.symbols.size < UInt32.size := by omega
    have hkeeps := supply.keeps_temporary ty
    have hload : (Instruction.load (supply.temporary ty).1 slot ty).Proper
        (supply.temporary ty).2.symbols := by
      refine ⟨⟨Supply.type?_temporary hlt ty, hkeeps.le.types hslot⟩,
        Supply.isTemporary_temporary hlt ty, ?_⟩
      rw [hkeeps.isTemporary (SymbolTable.lt_size_of_type? hslot), hlasting]
    refine ⟨_, ?_, Code.proper_snoc hfit (by omega) (List.forall_mem_nil _) hload⟩
    rw [lower]
    exact bind_eq_ok.2 ⟨ty, valueType_eq_ok.2 htype.ty_eq, bind_eq_ok.2 ⟨slot, hfind, rfl⟩⟩
  | .call _ _ _ symbol arguments, ty, supply, hbound, htype, hcover, hfit => by
    obtain ⟨hty, parameters, hf, hargs⟩ := htype
    simp only [nodes, List.length_cons] at hfit ⊢
    obtain ⟨⟨l, values, supply'⟩, hlower, hsize, hl, hvalues⟩ :=
      exists_lowerAll hbound.2 hargs hcover (by omega)
    dsimp only at hsize hl hvalues
    have hf' : supply'.symbols.function? symbol = some (parameters, some ty) :=
      (keeps_of_lowerAll hlower).le.functions hf
    have hle := (supply'.keeps_temporary ty).le
    have hcall : (Instruction.call (some (supply'.temporary ty).1) symbol values).Proper
        (supply'.temporary ty).2.symbols := by
      refine ⟨⟨parameters, some ty, hle.functions hf', ?_, hvalues.imp ?_⟩, trivial⟩
      · rintro v ⟨⟩
        exact ⟨ty, rfl, Supply.type?_temporary (by omega) ty⟩
      · rintro value parameter ⟨ty', hvalue, hparameter⟩
        exact ⟨ty', hvalue.mono hle, hle.types hparameter⟩
    refine ⟨_, ?_, Code.proper_snoc hfit (by omega) hl hcall⟩
    rw [lower]
    exact bind_eq_ok.2 ⟨ty, valueType_eq_ok.2 hty, bind_eq_ok.2 ⟨_, hlower,
      bind_eq_ok.2 ⟨some ty, SymbolTable.returnTypeOf_of_function? hf', rfl⟩⟩⟩
  | .binary _ _ op _ lhs rhs, ty, supply, hbound, htype, hcover, hfit => by
    obtain ⟨hty, operandTy, hl, hr, hop⟩ := htype
    simp only [nodes, List.length_cons, List.length_append] at hfit ⊢
    obtain ⟨lcode, hlower, hlcode⟩ := exists_lower hbound.1 hl hcover (by omega)
    have hkeeps := keeps_of_lower hlower
    have hlsize := hlcode.size
    obtain ⟨rcode, hrlower, hrcode⟩ :=
      exists_lower hbound.2 (hr.mono hkeeps.le) (hcover.keeps hkeeps) (by omega)
    have hrkeeps := keeps_of_lower hrlower
    have hrsize := hrcode.size
    have hlt : rcode.supply.symbols.size < UInt32.size := by omega
    have hle := (rcode.supply.keeps_temporary ty).le
    have hoperands : ∀ i ∈ lcode.instructions ++ rcode.instructions,
        i.Proper rcode.supply.symbols := by
      intro i hi
      rcases List.mem_append.1 hi with hi | hi
      · exact (hlcode.instructions i hi).keeps hrkeeps
      · exact hrcode.instructions i hi
    have hbinary : (Instruction.binary (rcode.supply.temporary ty).1 lcode.value op rcode.value
        operandTy ty).Proper (rcode.supply.temporary ty).2.symbols := by
      refine ⟨⟨Supply.type?_temporary hlt ty, (hlcode.value.mono hrkeeps.le).mono hle,
        hrcode.value.mono hle, ?_⟩, Supply.isTemporary_temporary hlt ty⟩
      split at hop
      · rw [if_pos ‹_›, hop]
      · rw [if_neg ‹_›, hop.1]
    refine ⟨_, ?_, Code.proper_snoc hfit (by omega) hoperands hbinary⟩
    rw [lower]
    exact bind_eq_ok.2 ⟨ty, valueType_eq_ok.2 hty, bind_eq_ok.2 ⟨operandTy,
      valueType_eq_ok.2 hl.ty_eq, bind_eq_ok.2 ⟨lcode, hlower, bind_eq_ok.2 ⟨rcode, hrlower,
        rfl⟩⟩⟩⟩
  | .negate _ _ operand, ty, supply, hbound, htype, hcover, hfit => by
    obtain ⟨hty, hoperand, hne⟩ := htype
    change operand.Bound scope at hbound
    simp only [nodes, List.length_cons] at hfit ⊢
    obtain ⟨zero, hzero, hzty⟩ := Constant.exists_zero hne
    obtain ⟨code, hlower, hcode⟩ := exists_lower hbound hoperand hcover (by omega)
    have hsize := hcode.size
    have hlt : code.supply.symbols.size < UInt32.size := by omega
    have hbinary : (Instruction.binary (code.supply.temporary ty).1 (.constant zero) .sub
        code.value ty ty).Proper (code.supply.temporary ty).2.symbols :=
      ⟨⟨Supply.type?_temporary hlt ty, hzty,
        hcode.value.mono (code.supply.keeps_temporary ty).le, rfl⟩,
        Supply.isTemporary_temporary hlt ty⟩
    refine ⟨_, ?_, Code.proper_snoc hfit (by omega) hcode.instructions hbinary⟩
    rw [lower]
    exact bind_eq_ok.2 ⟨ty, valueType_eq_ok.2 hty, bind_eq_ok.2 ⟨zero, hzero,
      bind_eq_ok.2 ⟨code, hlower, rfl⟩⟩⟩
  | .cast _ _ operand target, ty, supply, hbound, htype, hcover, hfit => by
    obtain ⟨hty, htarget, source, hoperand, hne, hconverts⟩ := htype
    change operand.Bound scope at hbound
    simp only [nodes, List.length_cons] at hfit ⊢
    obtain ⟨code, hlower, hcode⟩ := exists_lower hbound hoperand hcover (by omega)
    have hsize := hcode.size
    have hlt : code.supply.symbols.size < UInt32.size := by omega
    have hcast : (Instruction.cast (code.supply.temporary ty).1 code.value source ty).Proper
        (code.supply.temporary ty).2.symbols :=
      ⟨⟨Supply.type?_temporary hlt ty, hcode.value.mono (code.supply.keeps_temporary ty).le, hne,
        hconverts⟩, Supply.isTemporary_temporary hlt ty⟩
    refine ⟨_, ?_, Code.proper_snoc hfit (by omega) hcode.instructions hcast⟩
    rw [lower]
    exact bind_eq_ok.2 ⟨ty, valueType_eq_ok.2 hty, bind_eq_ok.2 ⟨source,
      valueType_eq_ok.2 hoperand.ty_eq, bind_eq_ok.2 ⟨code, hlower, rfl⟩⟩⟩

theorem exists_lowerAll : ∀ {exprs : List Expr.Typed}
    {parameters : List SymbolId} {supply : Supply},
    BoundAll scope exprs → HaveTypes supply.symbols exprs parameters →
      slots.Cover supply.symbols scope next →
      supply.symbols.size + (nodesAll exprs).length ≤ UInt32.size →
      ∃ result, lowerAll slots supply exprs = .ok result ∧
        result.2.2.symbols.size ≤ supply.symbols.size + (nodesAll exprs).length ∧
        (∀ i ∈ result.1, i.Proper result.2.2.symbols) ∧
        List.Forall₂ (fun value parameter => ∃ ty, value.HasType result.2.2.symbols ty ∧
          result.2.2.symbols.type? parameter = some ty) result.2.1 parameters
  | [], [], supply, _, _, _, _ => 
    ⟨([], [], supply), rfl, Nat.le_add_right .., List.forall_mem_nil _, .nil⟩
  | expr :: rest, parameter :: parameters, supply, hbound, ⟨⟨ty, hty, htype⟩, htypes⟩, hcover,
      hfit => by
      simp only [nodesAll, List.length_append] at hfit ⊢
      obtain ⟨code, hlower, hcode⟩ := exists_lower hbound.1 htype hcover (by omega)
      have hkeeps := keeps_of_lower hlower
      have hsize := hcode.size
      obtain ⟨⟨l, values, supply'⟩, hrest, hsize', hl, hvalues⟩ :=
        exists_lowerAll hbound.2 (htypes.mono hkeeps.le) (hcover.keeps hkeeps) (by omega)
      dsimp only at hsize' hl hvalues
      have hkeeps' : code.supply.symbols.Keeps supply'.symbols := keeps_of_lowerAll hrest
      refine ⟨(code.instructions ++ l, code.value :: values, supply'), ?_, ?_, ?_, .cons ?_ hvalues⟩
      · rw [lowerAll]
        exact bind_eq_ok.2 ⟨code, hlower, bind_eq_ok.2 ⟨_, hrest, rfl⟩⟩
      · dsimp only
        omega
      · intro i hi
        rcases List.mem_append.1 hi with hi | hi
        · exact (hcode.instructions i hi).keeps hkeeps'
        · exact hl i hi
      · exact ⟨ty, hcode.value.mono hkeeps'.le, (hkeeps.trans hkeeps').le.types hty⟩

end

theorem lowerEffect_of_lower {expr : Expr.Typed} {supply : Supply}
    (h : expr.lower slots supply = .ok code) :
    expr.lowerEffect slots supply = .ok (code.instructions, code.supply) := by
  cases expr with
  | call span ty callee symbol arguments =>
    rw [lower] at h
    obtain ⟨ty', -, h⟩ := bind_eq_ok.1 h
    obtain ⟨⟨l, values, supply'⟩, harguments, h⟩ := bind_eq_ok.1 h
    obtain ⟨returnType, hreturn, h⟩ := bind_eq_ok.1 h
    refine bind_eq_ok.2 ⟨_, harguments, bind_eq_ok.2 ⟨returnType, hreturn, ?_⟩⟩
    cases returnType with
    | none => cases h
    | some ty =>
      cases h
      rfl
  | _ => exact bind_eq_ok.2 ⟨code, h, rfl⟩

theorem exists_lowerEffect {expr : Expr.Typed} {supply : Supply}
    (hbound : expr.Bound scope) (htype : expr.WellTyped supply.symbols)
    (hcover : slots.Cover supply.symbols scope next)
    (hfit : supply.symbols.size + expr.nodes.length ≤ UInt32.size) :
    ∃ result, expr.lowerEffect slots supply = .ok result ∧
      result.2.symbols.size ≤ supply.symbols.size + expr.nodes.length ∧
      ∀ i ∈ result.1, i.Proper result.2.symbols := by
  rcases htype with ⟨ty, htype⟩ | ⟨span, callee, symbol, arguments, parameters, rfl, hf, hargs⟩
  · obtain ⟨code, hlower, hcode⟩ := exists_lower hbound htype hcover hfit
    exact ⟨_, lowerEffect_of_lower hlower, hcode.size, hcode.instructions⟩
  · simp only [nodes, List.length_cons] at hfit ⊢
    obtain ⟨⟨l, values, supply'⟩, hlower, hsize, hl, hvalues⟩ :=
      exists_lowerAll hbound.2 hargs hcover (by omega)
    have hf' : supply'.symbols.function? symbol = some (parameters, none) :=
      (keeps_of_lowerAll hlower).le.functions hf
    refine ⟨(l ++ [Instruction.call none symbol values], supply'), ?_, ?_, fun i hi => ?_⟩
    · exact bind_eq_ok.2 ⟨_, hlower, bind_eq_ok.2 ⟨none,
        SymbolTable.returnTypeOf_of_function? hf', rfl⟩⟩
    · dsimp only at hsize ⊢
      omega
    · rcases List.mem_append.1 hi with hi | hi
      · exact hl i hi
      · rw [List.mem_singleton.1 hi]
        exact ⟨⟨parameters, none, hf', by simp, hvalues⟩, trivial⟩

end Expr

namespace Flow

/-! ## Drafts -/

variable {table : SymbolTable}

namespace Function.Proper

variable {f : Function}

theorem modify (h : f.Proper table) {id : BlockId} {change : Block → Block}
    (hchange : ∀ block, ∀ i ∈ (change block).instructions,
      i ∈ block.instructions ∨ i.Proper table) : (f.modifyBlock id change).Proper table := by
  rcases f.modifyBlock_cases id change with hsame | ⟨block, hb, hnew⟩
  · rwa [hsame]
  · rw [hnew]
    refine fun j b => forall_setBlock hb (Q := fun _ b => ∀ i ∈ b.instructions, i.Proper table)
      (h _ _) fun i hi => ?_
    rcases hchange block i hi with hi | hi
    · exact h _ _ hb i hi
    · exact hi

theorem addBlock (h : f.Proper table) : f.addBlock.Proper table := by
  intro j block hj
  rw [show f.addBlock.block? j = _ from Arena.get?_push ..] at hj
  split at hj
  · cases hj
    intro i hi
    rw [List.mem_singleton.1 hi]
    exact ⟨trivial, trivial⟩
  · exact h j block hj

end Function.Proper

namespace Draft

variable {draft draft' : Draft}

section

variable (h : draft.function.Proper table)

include h

theorem proper_emit (hl : ∀ i ∈ l, i.Proper table) : (draft.emit l).function.Proper table := by
  refine h.modify fun block i hi => ?_
  exact (List.mem_append.1 hi).imp_right (hl i)

theorem proper_jump (target : BlockId) : (draft.jump target).function.Proper table := by
  refine Function.Proper.modify (proper_emit h fun i hi => ?_) fun block i hi => .inl hi
  rw [List.mem_singleton.1 hi]
  exact ⟨trivial, trivial⟩

theorem proper_jumpIfOpen (target : BlockId) : (draft.jumpIfOpen target).function.Proper table := by
  rw [jumpIfOpen]
  split
  · exact h
  · exact proper_jump h target

theorem proper_fork {condition : Operand} (hcondition : condition.HasType table .bool) :
    (draft.fork condition).function.Proper table := by
  simp only [fork, enter, function_split]
  refine h.addBlock.addBlock.addBlock.modify fun block i hi => ?_
  rcases List.mem_append.1 hi with hi | hi
  · exact .inl hi
  · rw [List.mem_singleton.1 hi]
    exact .inr ⟨hcondition, trivial⟩

end

/-- What lowering a statement relies on: the code so far is proper, and there are
slots for the variables in sight and for the value that is returned. -/
structure Serves (draft : Draft) (scope : Scope) (next : Nat) (returnType : Option Ty) : Prop where
  proper : draft.function.Proper draft.supply.symbols
  slots : draft.slots.Cover draft.supply.symbols scope next
  returns : Option.Rel (fun slot ty => draft.supply.symbols.type? slot.symbol = some ty ∧
    draft.supply.symbols.isTemporary slot.symbol = false) draft.returnSlot returnType

/-- A draft whose code is proper and takes no more than some room. -/
structure Grows (draft : Draft) (room : Nat) (draft' : Draft) : Prop where
  proper : draft'.function.Proper draft'.supply.symbols
  symbols : draft'.supply.symbols.size ≤ draft.supply.symbols.size + room
  blocks : draft'.function.blocks.size ≤ draft.function.blocks.size + room

variable {scope : Scope} {next next' : Nat} {returnType : Option Ty}

theorem returns_keeps {returnSlot : Option Variable} {table table' : SymbolTable}
    (hkeeps : table.Keeps table')
    (h : Option.Rel (fun slot ty => table.type? slot.symbol = some ty ∧
      table.isTemporary slot.symbol = false) returnSlot returnType) :
    Option.Rel (fun slot ty => table'.type? slot.symbol = some ty ∧
      table'.isTemporary slot.symbol = false) returnSlot returnType := by
  cases h with
  | none => exact .none
  | some h =>
    refine .some ⟨hkeeps.le.types h.1, ?_⟩
    rw [hkeeps.isTemporary (SymbolTable.lt_size_of_type? h.1), h.2]

/-- Steps of lowering leave the slots of the variables that were in sight. -/
theorem Serves.steps {pending pending' : List BlockId} {isOpen isOpen' : Bool}
    (h : draft.Serves scope next returnType)
    (hsteps : Stage.Steps next ⟨pending, draft, isOpen⟩ ⟨pending', draft', isOpen'⟩)
    (hproper : draft'.function.Proper draft'.supply.symbols) (hle : next ≤ next') :
    draft'.Serves scope next' returnType := by
  have hkeeps : draft.supply.symbols.Keeps draft'.supply.symbols := Stage.Steps.keeps hsteps
  have hreturn : draft'.returnSlot = draft.returnSlot := Stage.Steps.returnSlot hsteps
  refine ⟨hproper, fun name id hfind => ?_, hreturn ▸ returns_keeps hkeeps h.returns⟩
  obtain ⟨hlt, ty, slot, hty, hlookup, hslot⟩ := h.slots.keeps hkeeps name id hfind
  have hsame : draft'.slots.lookup id = draft.slots.lookup id := Stage.Steps.lookup hsteps hlt
  exact ⟨Nat.lt_of_lt_of_le hlt hle, ty, slot, hty, hsame.trans hlookup, hslot⟩

end Draft

theorem Slots.Cover.declare {slots : Slots} {scope : Scope} {next next' : Nat} {id : SymbolId}
    {slot : Variable} (h : slots.Cover table scope next) (name : String) (hlt : id < next')
    (hle : next ≤ next') (hty : table.type? id = some ty)
    (hslot : table.type? slot.symbol = some ty) (hlasting : table.isTemporary slot.symbol = false) :
    Slots.Cover ((id, slot) :: slots) table (scope.declare name (.var id)) next' := by
  intro name' id' hfind
  by_cases hid : id' = id
  · subst hid
    exact ⟨hlt, ty, slot, hty, by simp, hslot, hlasting⟩
  · have hfind' : scope.find? name' = some (.var id') := by
      simp only [Scope.declare, Scope.find?, List.lookup_cons] at hfind ⊢
      split at hfind
      · cases hfind
        exact absurd rfl hid
      · exact hfind
    obtain ⟨hlt', ty', slot', hty', hlookup, hslot'⟩ := h name' id' hfind'
    refine ⟨Nat.lt_of_lt_of_le hlt' hle, ty', slot', hty', ?_, hslot'⟩
    rw [List.lookup_cons, beq_false_of_ne hid]
    exact hlookup

namespace Draft

variable {draft : Draft} {room : Nat}

theorem grows_extend (h : draft.function.Proper draft.supply.symbols) {supply : Supply}
    (hkeeps : draft.supply.symbols.Keeps supply.symbols)
    (hsize : supply.symbols.size ≤ draft.supply.symbols.size + room)
    (hl : ∀ i ∈ l, i.Proper supply.symbols) : draft.Grows room (draft.extend l supply) := by
  refine ⟨proper_emit (h.keeps hkeeps) hl, hsize, ?_⟩
  rw [show (draft.extend l supply).function.blocks.size = _ from Function.modifyBlock_size ..]
  exact Nat.le_add_right ..

/-- Code for a value and a store of the value in a slot of its type. -/
theorem grows_save (h : draft.function.Proper draft.supply.symbols) {slot : Variable}
    (hkeeps : draft.supply.symbols.Keeps code.supply.symbols)
    (hcode : code.Proper draft.supply ty room)
    (hslot : draft.supply.symbols.type? slot.symbol = some ty) :
    draft.Grows room (draft.save code slot ty) := by
  refine grows_extend h hkeeps hcode.size fun i hi => ?_
  rcases List.mem_append.1 hi with hi | hi
  · exact hcode.instructions i hi
  · rw [List.mem_singleton.1 hi]
    exact ⟨⟨hkeeps.le.types hslot, hcode.value⟩, trivial⟩

theorem Grows.jump (h : draft.Grows room draft') (target : BlockId) :
    draft.Grows room (draft'.jump target) := by
  refine ⟨proper_jump h.proper target, h.symbols, ?_⟩
  rw [function_jump, Function.modifyBlock_size]
  exact h.blocks

theorem Grows.join (h : draft.Grows room draft') (after id : BlockId) :
    draft.Grows room ((draft'.jumpIfOpen after).enter id) := by
  refine ⟨?_, ?_, ?_⟩
  · change (draft'.jumpIfOpen after).function.Proper (draft'.jumpIfOpen after).supply.symbols
    rw [supply_jumpIfOpen]
    exact proper_jumpIfOpen h.proper after
  · change (draft'.jumpIfOpen after).supply.symbols.size ≤ _
    rw [supply_jumpIfOpen]
    exact h.symbols
  · change (draft'.jumpIfOpen after).function.blocks.size ≤ _
    rw [size_jumpIfOpen]
    exact h.blocks

theorem Grows.trans {draft'' : Draft} {room' : Nat} (h : draft.Grows room draft')
    (h' : draft'.Grows room' draft'') : draft.Grows (room + room') draft'' := by
  have hsymbols := h.symbols
  have hsymbols' := h'.symbols
  have hblocks := h.blocks
  have hblocks' := h'.blocks
  exact ⟨h'.proper, by omega, by omega⟩

theorem grows_fork (h : draft.function.Proper draft.supply.symbols)
    (hkeeps : draft.supply.symbols.Keeps code.supply.symbols)
    (hcode : code.Proper draft.supply .bool room) :
    draft.Grows (room + 3) ((draft.extend code.instructions code.supply).fork code.value) := by
  have hgrows := grows_extend h hkeeps hcode.size hcode.instructions
  refine ⟨proper_fork hgrows.proper hcode.value, ?_, ?_⟩
  · exact Nat.le_trans hgrows.symbols (by omega)
  · rw [size_fork]
    have hblocks := hgrows.blocks
    omega

end Draft

end Flow

/-! ## Statements -/

section

variable {table : SymbolTable} {returnType : Option Ty} {scope : Scope} {next : Nat} {draft : Draft}

section

variable (hkeeps : table.Keeps draft.supply.symbols)

include hkeeps

theorem Statement.serves_of_lower {statement : Statement.Typed}
    (hbound : statement.Bound scope next) (hlocals : table.Locals next statement.declarations)
    (hserves : draft.Serves scope next returnType) (hlower : statement.lower draft = .ok draft')
    (hproper : draft'.function.Proper draft'.supply.symbols) :
    draft'.Serves (statement.scopeAfter scope) (next + statement.declarations) returnType := by
  have hsteps := Statement.steps_of_lower hkeeps [] hbound hlocals hlower
  have hserves' := hserves.steps hsteps hproper (Nat.le_add_right next statement.declarations)
  cases statement with
  | declare decl =>
    obtain ⟨-, hsymbol⟩ := hbound
    obtain ⟨name, ty, hget⟩ := hlocals next (Nat.le_refl _) (Nat.lt_succ_self _)
    rw [← hsymbol] at hget
    have hget' := (hkeeps.trans (Stage.Steps.keeps hsteps)).get hget
    have hty := SymbolTable.type?_eq_some.2 ⟨_, _, hget'⟩
    refine ⟨hproper, ?_, hserves'.returns⟩
    rw [Statement.slots_of_lower_declare hlower]
    refine (hserves.slots.keeps (Stage.Steps.keeps hsteps)).declare decl.name.name ?_
      (Nat.le_add_right ..) hty hty (slotIn_of_get? hget' (by simp)).lasting
    rw [hsymbol]
    exact Nat.lt_succ_self _
  | _ => exact hserves'

theorem Statement.exists_lower_declare {decl : Local SymbolId (Option Ty)}
    (hbound : (Statement.declare decl).Bound scope next)
    (htype : (Statement.declare decl).WellTyped table returnType)
    (hserves : draft.Serves scope next returnType)
    (hfit : draft.supply.symbols.size + (Statement.declare decl).extent ≤ UInt32.size) :
    ∃ draft', (Statement.declare decl).lower draft = .ok draft' ∧
      draft.Grows (Statement.declare decl).extent draft' := by
  obtain ⟨ty, hty, hinit⟩ := htype
  obtain ⟨hinitBound, hsymbol⟩ := hbound
  have hty' := hkeeps.le.types hty
  have hproper : (draft.emit [.alloca { symbol := decl.symbol } ty]).function.Proper
      draft.supply.symbols := by
    refine Draft.proper_emit hserves.proper fun i hi => ?_
    rw [List.mem_singleton.1 hi]
    exact ⟨trivial, trivial⟩
  have hblocks : (draft.emit [.alloca { symbol := decl.symbol } ty]).function.blocks.size =
      draft.function.blocks.size := Function.modifyBlock_size ..
  cases hdecl : decl.initializer with
  | none =>
    refine ⟨(draft.emit [.alloca { symbol := decl.symbol } ty]).bindSlot decl.symbol
      { symbol := decl.symbol }, ?_, hproper, Nat.le_add_right .., ?_⟩
    · rw [Statement.lower]
      refine bind_eq_ok.2 ⟨ty, SymbolTable.typeOf_eq_ok.2 hty', ?_⟩
      rw [hdecl]
      rfl
    · exact Nat.le_trans (Nat.le_of_eq hblocks) (Nat.le_add_right ..)
  | some e =>
    -- the initializer does not see the variable, whose slot is there already
    let slot : Variable := { symbol := decl.symbol }
    let draft₁ := (draft.emit [.alloca slot ty]).bindSlot decl.symbol slot
    have hcover : draft₁.slots.Cover draft.supply.symbols scope next := by
      intro name id hfind
      obtain ⟨hlt, ty', slot', h, hlookup, hslot⟩ := hserves.slots name id hfind
      refine ⟨hlt, ty', slot', h, ?_, hslot⟩
      have hne : id ≠ decl.symbol := by
        rw [hsymbol]
        exact Nat.ne_of_lt hlt
      change List.lookup id ((decl.symbol, slot) :: draft.slots) = _
      rw [List.lookup_cons, beq_false_of_ne hne]
      exact hlookup
    simp only [Statement.extent, hdecl, Option.elim] at hfit ⊢
    obtain ⟨code, hcode, hproper'⟩ := Expr.exists_lower (hinitBound e hdecl)
      ((hinit e hdecl).mono hkeeps.le) hcover hfit
    have hgrows : draft₁.Grows e.nodes.length (draft₁.save code slot ty) := by
      apply Draft.grows_save
      · exact hproper
      · exact Expr.keeps_of_lower hcode
      · exact hproper'
      · exact hty'
    refine ⟨draft₁.save code slot ty, ?_, hgrows.proper, hgrows.symbols, ?_⟩
    · rw [Statement.lower]
      refine bind_eq_ok.2 ⟨ty, SymbolTable.typeOf_eq_ok.2 hty', ?_⟩
      rw [hdecl, ← Draft.take_emit]
      exact bind_eq_ok.2 ⟨code, hcode, rfl⟩
    · rw [← hblocks]
      exact hgrows.blocks

theorem Statement.exists_lower_ret {span : Span} {value : Expr.Typed} (hbound : value.Bound scope)
    (htype : (Statement.ret span (some value)).WellTyped table returnType)
    (hserves : draft.Serves scope next returnType)
    (hfit : draft.supply.symbols.size + value.nodes.length ≤ UInt32.size) :
    ∃ draft', (Statement.ret span (some value)).lower draft = .ok draft' ∧
      draft.Grows value.nodes.length draft' := by
  obtain ⟨ty, rfl, htype⟩ := htype
  have hreturns := hserves.returns
  generalize hslot : draft.returnSlot = returnSlot at hreturns
  cases hreturns with
  | @some slot _ hreturn =>
    obtain ⟨code, hcode, hproper⟩ :=
      Expr.exists_lower hbound (htype.mono hkeeps.le) hserves.slots hfit
    have hgrows := Draft.grows_save hserves.proper (Expr.keeps_of_lower hcode) hproper hreturn.1
    refine ⟨(draft.save code slot ty).jump draft.function.exit, ?_, hgrows.jump _⟩
    rw [Statement.lower, hslot, ← Draft.take_emit]
    exact bind_eq_ok.2 ⟨ty, SymbolTable.typeOf_eq_ok.2 hreturn.1, bind_eq_ok.2 ⟨code, hcode, rfl⟩⟩

theorem Statement.exists_fork {condition : Expr.Typed} (hbound : condition.Bound scope)
    (htype : condition.HasType table .bool) (hserves : draft.Serves scope next returnType)
    (hfit : draft.supply.symbols.size + condition.nodes.length ≤ UInt32.size) :
    ∃ code, condition.lower draft.slots draft.supply = .ok code ∧
      let forked := (draft.extend code.instructions code.supply).fork code.value
      table.Keeps forked.supply.symbols ∧ forked.Serves scope next returnType ∧
        draft.Grows (condition.nodes.length + 3) forked := by
  obtain ⟨code, hcode, hproper⟩ :=
    Expr.exists_lower hbound (htype.mono hkeeps.le) hserves.slots hfit
  have hs := Expr.straight_of_lower draft.returnSlot hcode
  have hgrows := Draft.grows_fork hserves.proper (Expr.keeps_of_lower hcode) hproper
  have hfork : Stage.Step next ⟨[], draft, true⟩ _ := .fork hs.straight hs.value
  exact ⟨code, hcode, hkeeps.trans hfork.keeps,
    hserves.steps (.single hfork) hgrows.proper (Nat.le_refl _), hgrows⟩

theorem Statement.exists_lower_ifElse {span : Span} {condition : Expr.Typed}
    {positive negative : Block.Typed}
    (hbound : (Statement.ifElse span condition positive negative).Bound scope next)
    (hlocals : table.Locals next positive.declarations)
    (htype : (Statement.ifElse span condition positive negative).WellTyped table returnType)
    (hserves : draft.Serves scope next returnType)
    (hfit : draft.supply.symbols.size +
      (Statement.ifElse span condition positive negative).extent ≤ UInt32.size)
    (hpositive : ∀ draft : Draft, table.Keeps draft.supply.symbols →
      draft.Serves scope next returnType →
      draft.supply.symbols.size + positive.extent ≤ UInt32.size →
      ∃ draft', positive.lower draft = .ok draft' ∧ draft.Grows positive.extent draft')
    (hnegative : ∀ draft : Draft, table.Keeps draft.supply.symbols →
      draft.Serves scope (next + positive.declarations) returnType →
      draft.supply.symbols.size + negative.extent ≤ UInt32.size →
      ∃ draft', negative.lower draft = .ok draft' ∧ draft.Grows negative.extent draft') :
    ∃ draft', (Statement.ifElse span condition positive negative).lower draft = .ok draft' ∧
      draft.Grows (Statement.ifElse span condition positive negative).extent draft' := by
  simp only [Statement.extent] at hfit ⊢
  obtain ⟨code, hcode, hkeeps₁, hserves₁, hgrows⟩ :=
    Statement.exists_fork hkeeps hbound.1 htype.1 hserves (by omega)
  let forked := draft.extend code.instructions code.supply
  have hsymbols := hgrows.symbols
  obtain ⟨draft₁, hlower₁, hgrows₁⟩ := hpositive _ hkeeps₁ hserves₁ (by omega)
  let joined := (draft₁.jumpIfOpen forked.forkTargets.2.2).enter forked.forkTargets.2.1
  have hgrows₂ : draft.Grows _ joined := (hgrows.trans hgrows₁).join _ _
  obtain ⟨isOpen, hsteps⟩ := Block.steps_of_lower hkeeps₁ [forked.forkTargets.2.1,
    forked.forkTargets.2.2] hbound.2.1 hlocals hlower₁
  have hsteps₂ := Relation.ReflTransGen.tail hsteps
    (.join (List.mem_cons_of_mem _ List.mem_cons_self))
  have hkeeps₂ : table.Keeps joined.supply.symbols := hkeeps₁.trans (Stage.Steps.keeps hsteps₂)
  have hserves₂ : joined.Serves scope (next + positive.declarations) returnType :=
    hserves₁.steps hsteps₂ hgrows₂.proper (Nat.le_add_right ..)
  have hsymbols₂ := hgrows₂.symbols
  obtain ⟨draft₂, hlower₂, hgrows₃⟩ := hnegative _ hkeeps₂ hserves₂ (by omega)
  refine ⟨_, ?_, (hgrows₂.trans hgrows₃).join forked.forkTargets.2.2 forked.forkTargets.2.2⟩
  rw [Statement.lower_ifElse]
  exact bind_eq_ok.2 ⟨code, hcode, bind_eq_ok.2 ⟨draft₁, hlower₁, bind_eq_ok.2 ⟨draft₂, hlower₂,
    rfl⟩⟩⟩

end

end

mutual

theorem Statement.exists_lower {table : SymbolTable} {returnType : Option Ty} :
    ∀ {statement : Statement.Typed} {scope : Scope} {next : Nat} {draft : Draft},
      table.Keeps draft.supply.symbols → statement.Bound scope next →
      table.Locals next statement.declarations → statement.WellTyped table returnType →
      draft.Serves scope next returnType →
      draft.supply.symbols.size + statement.extent ≤ UInt32.size →
      ∃ draft', statement.lower draft = .ok draft' ∧ draft.Grows statement.extent draft'
  | .declare _, _, _, _, hkeeps, hbound, _, htype, hserves, hfit =>
    Statement.exists_lower_declare hkeeps hbound htype hserves hfit
  | .assign _ target symbol value, scope, next, draft, hkeeps, hbound, _, ⟨ty, hty, htype⟩, hserves,
      hfit => by
      obtain ⟨-, ty', slot, hty', hlookup, hslot, -⟩ := hserves.slots _ _ hbound.2
      cases hty'.symm.trans (hkeeps.le.types hty)
      have hfind : draft.slots.find draft.supply.symbols symbol = .ok slot := by
        rw [Slots.find, hlookup]
      obtain ⟨code, hcode, hproper⟩ :=
        Expr.exists_lower hbound.1 (htype.mono hkeeps.le) hserves.slots hfit
      refine ⟨draft.save code slot ty, ?_,
        Draft.grows_save hserves.proper (Expr.keeps_of_lower hcode) hproper hslot⟩
      rw [Statement.lower, ← Draft.take_emit]
      exact bind_eq_ok.2 ⟨slot, hfind, bind_eq_ok.2 ⟨ty, SymbolTable.typeOf_eq_ok.2 hslot,
        bind_eq_ok.2 ⟨code, hcode, rfl⟩⟩⟩
  | .ret _ none, _, _, draft, _, _, _, _, hserves, _ => by
    refine ⟨draft.jump draft.function.exit, by rw [Statement.lower]; rfl, ?_⟩
    exact Draft.Grows.jump ⟨hserves.proper, Nat.le_add_right .., Nat.le_add_right ..⟩ _
  | .ret _ (some value), _, _, _, hkeeps, hbound, _, htype, hserves, hfit =>
    Statement.exists_lower_ret hkeeps (hbound value rfl) htype hserves hfit
  | .ifThen span _ positive, _, _, _, hkeeps, hbound, hlocals, htype, hserves, hfit => by
    rw [Statement.lower_ifThen_eq]
    exact Statement.exists_lower_ifElse hkeeps ⟨hbound.1, hbound.2, trivial⟩ hlocals
      ⟨htype.1, htype.2, trivial⟩ hserves hfit
      (fun _ hkeeps hserves hfit => Block.exists_lower hkeeps hbound.2 hlocals htype.2 hserves hfit)
      fun draft _ hserves _ =>
        ⟨draft, rfl, hserves.proper, Nat.le_add_right .., Nat.le_add_right ..⟩
  | .ifElse _ _ positive negative, _, next, _, hkeeps, hbound, hlocals, htype, hserves, hfit => by
    have hlocals₁ : table.Locals next positive.declarations :=
      hlocals.mono (Nat.le_refl _) (Nat.add_le_add_left (Nat.le_add_right ..) _)
    have hlocals₂ : table.Locals (next + positive.declarations) negative.declarations :=
      hlocals.mono (Nat.le_add_right ..) (Nat.le_of_eq (Nat.add_assoc ..))
    exact Statement.exists_lower_ifElse hkeeps hbound hlocals₁ htype hserves hfit
      (fun _ hkeeps hserves hfit =>
        Block.exists_lower hkeeps hbound.2.1 hlocals₁ htype.2.1 hserves hfit)
      fun _ hkeeps hserves hfit =>
        Block.exists_lower hkeeps hbound.2.2 hlocals₂ htype.2.2 hserves hfit
  | .expr _ value, scope, next, draft, hkeeps, hbound, _, htype, hserves, hfit => by
    obtain ⟨⟨l, supply⟩, hlower, hsize, hl⟩ :=
      Expr.exists_lowerEffect hbound (Expr.WellTyped.mono hkeeps.le htype) hserves.slots hfit
    refine ⟨draft.extend l supply, ?_, Draft.grows_extend hserves.proper
      (Expr.straight_of_lowerEffect none hlower).keeps hsize hl⟩
    rw [Statement.lower]
    exact bind_eq_ok.2 ⟨_, hlower, rfl⟩

theorem Block.exists_lower {table : SymbolTable} {returnType : Option Ty} :
    ∀ {block : Block.Typed} {scope : Scope} {next : Nat} {draft : Draft},
      table.Keeps draft.supply.symbols → block.Bound scope next →
      table.Locals next block.declarations → block.WellTyped table returnType →
      draft.Serves scope next returnType →
      draft.supply.symbols.size + block.extent ≤ UInt32.size →
      ∃ draft', block.lower draft = .ok draft' ∧ draft.Grows block.extent draft'
  | .mk _ statements, _, _, _, hkeeps, hbound, hlocals, htype, hserves, hfit => by
    rw [Block.lower]
    exact Statement.exists_lowerAll hkeeps hbound hlocals htype hserves hfit

theorem Statement.exists_lowerAll {table : SymbolTable} {returnType : Option Ty} :
    ∀ {statements : List Statement.Typed} {scope : Scope} {next : Nat}
      {draft : Draft}, table.Keeps draft.supply.symbols →
      Statement.BoundAll scope next statements →
      table.Locals next (Statement.declarationsAll statements) →
      Statement.AllWellTyped table returnType statements → draft.Serves scope next returnType →
      draft.supply.symbols.size + Statement.extentAll statements ≤ UInt32.size →
      ∃ draft', Statement.lowerAll draft statements = .ok draft' ∧
        draft.Grows (Statement.extentAll statements) draft'
  | [], _, _, draft, _, _, _, _, hserves, _ =>
    ⟨draft, rfl, hserves.proper, Nat.le_add_right .., Nat.le_add_right ..⟩
  | statement :: rest, scope, next, draft, hkeeps, hbound, hlocals, htype, hserves, hfit => by
    simp only [Statement.extentAll] at hfit ⊢
    have hlocals₁ : table.Locals next statement.declarations :=
      hlocals.mono (Nat.le_refl _) (Nat.add_le_add_left (Nat.le_add_right ..) _)
    obtain ⟨draft₁, hlower₁, hgrows₁⟩ := Statement.exists_lower hkeeps hbound.1 hlocals₁ htype.1
      hserves (by omega)
    cases hret : statement.isReturn with
    | true =>
      cases statement with
      | ret span value =>
        have hsymbols := hgrows₁.symbols
        have hblocks := hgrows₁.blocks
        refine ⟨draft₁, ?_, hgrows₁.proper, by omega, by omega⟩
        rw [Statement.lowerAll]
        exact hlower₁
      | _ => cases hret
    | false =>
      have hserves₁ := Statement.serves_of_lower hkeeps hbound.1 hlocals₁ hserves hlower₁
        hgrows₁.proper
      have hsymbols := hgrows₁.symbols
      obtain ⟨draft₂, hlower₂, hgrows₂⟩ := Statement.exists_lowerAll
        (hkeeps.trans (Statement.keeps_of_lower hlower₁)) hbound.2
        (hlocals.mono (Nat.le_add_right ..) (Nat.le_of_eq (Nat.add_assoc ..))) htype.2 hserves₁
        (by omega)
      refine ⟨draft₂, ?_, hgrows₁.trans hgrows₂⟩
      rw [Statement.lowerAll_cons hret]
      exact bind_eq_ok.2 ⟨draft₁, hlower₁, hlower₂⟩

end

/-! ## Functions -/

namespace Flow.Draft

variable {table : SymbolTable} {returnType : Option Ty} {scope : Scope} {next : Nat} {draft : Draft}

theorem serves_declareReturn (hproper : draft.function.Proper draft.supply.symbols)
    (hslot : draft.returnSlot = none)
    (hscope : ∀ name id, scope.find? name ≠ some (.var id))
    (hfit : draft.supply.symbols.size < UInt32.size) :
    draft.declareReturn.Serves scope next draft.function.returnType ∧
      draft.declareReturn.supply.symbols.size ≤ draft.supply.symbols.size + 1 := by
  unfold declareReturn
  split
  · rename_i hty
    refine ⟨⟨hproper, fun name id hfind => absurd hfind (hscope name id), ?_⟩, Nat.le_succ _⟩
    rw [hslot, hty]
    exact .none
  · rename_i ty hty
    have hget := Supply.get?_slot hfit "$ret" ty .returnSlot
    have hkeeps : draft.supply.symbols.Keeps (draft.supply.slot "$ret" ty .returnSlot).2.symbols :=
      SymbolTable.keeps_declareVariable ..
    refine ⟨⟨?_, fun name id hfind => absurd hfind (hscope name id), ?_⟩, ?_⟩
    · refine proper_emit (hproper.keeps hkeeps) fun i hi => ?_
      rw [List.mem_singleton.1 hi]
      exact ⟨trivial, trivial⟩
    · rw [hty]
      exact .some
        ⟨SymbolTable.type?_eq_some.2 ⟨_, _, hget⟩, (slotIn_of_get? hget (by simp)).lasting⟩
    · exact Nat.le_of_eq (SymbolTable.size_declareVariable ..)

theorem serves_bindParameter {p : Parameter SymbolId} (h : draft.Serves scope next returnType)
    (hget : draft.supply.symbols.get? p.symbol = some ⟨p.name.name, .var (some p.ty.ty) .parameter⟩)
    (hlt : p.symbol < next) (hfit : draft.supply.symbols.size < UInt32.size) :
    (draft.bindParameter p p.ty.ty).Serves (scope.declare p.name.name (.var p.symbol)) next
      returnType := by
  have hslot := Supply.get?_slot hfit s!"{p.name.name}.addr" p.ty.ty .parameterSlot
  have hkeeps := draft.keeps_bindParameter p p.ty.ty
  have hty := SymbolTable.type?_eq_some.2 ⟨_, _, hslot⟩
  have hp := SymbolTable.type?_eq_some.2 ⟨_, _, hkeeps.get hget⟩
  refine ⟨?_, ?_, returns_keeps hkeeps h.returns⟩
  · refine proper_emit (h.proper.keeps hkeeps) fun i hi => ?_
    simp only [List.mem_cons, List.not_mem_nil, or_false] at hi
    rcases hi with rfl | rfl
    · exact ⟨trivial, trivial⟩
    · exact ⟨⟨hty, hp⟩, trivial⟩
  · exact (h.slots.keeps hkeeps).declare _ hlt (Nat.le_refl _) hp hty
      (slotIn_of_get? hslot (by simp)).lasting

theorem exists_declareParameter {parameters : List (Parameter SymbolId)}
    (hkeeps : table.Keeps draft.supply.symbols)
    (hget : ∀ p ∈ parameters,
      table.get? p.symbol = some ⟨p.name.name, .var (some p.ty.ty) .parameter⟩)
    (hlt : ∀ p ∈ parameters, p.symbol < next) (h : draft.Serves scope next returnType)
    (hfit : draft.supply.symbols.size + parameters.length ≤ UInt32.size) :
    ∃ draft', parameters.foldlM declareParameter draft = .ok draft' ∧
      draft'.Serves (scope.declareParameters parameters) next returnType ∧
      draft'.supply.symbols.size = draft.supply.symbols.size + parameters.length := by
  induction parameters generalizing draft scope with
  | nil => exact ⟨draft, rfl, h, rfl⟩
  | cons p rest ih =>
    rw [List.length_cons] at hfit ⊢
    have hp := hkeeps.get (hget p List.mem_cons_self)
    have hsize := draft.size_bindParameter p p.ty.ty
    obtain ⟨draft', hfold, hserves, hsize'⟩ := @ih
      (scope.declare p.name.name (.var p.symbol)) (draft.bindParameter p p.ty.ty)
      (hkeeps.trans (SymbolTable.keeps_declareVariable ..))
      (fun q hq => hget q (List.mem_cons_of_mem _ hq))
      (fun q hq => hlt q (List.mem_cons_of_mem _ hq))
      (serves_bindParameter h hp (hlt p List.mem_cons_self) (by omega)) (by omega)
    refine ⟨draft', ?_, hserves, by omega⟩
    rw [List.foldlM_cons, declareParameter_of_get? hp]
    exact hfold

theorem exists_finish (hproper : draft.function.Proper draft.supply.symbols)
    (hreturns : Option.Rel (fun slot ty => draft.supply.symbols.type? slot.symbol = some ty ∧
      draft.supply.symbols.isTemporary slot.symbol = false) draft.returnSlot returnType)
    (hfit : draft.supply.symbols.size < UInt32.size) :
    ∃ draft', draft.finish = .ok draft' ∧ draft.Grows 1 draft' := by
  have hjoin : draft.Grows 0 ((draft.jumpIfOpen draft.function.exit).enter draft.function.exit) :=
    Grows.join ⟨hproper, Nat.le_refl _, Nat.le_refl _⟩ _ _
  generalize hended : (draft.jumpIfOpen draft.function.exit).enter draft.function.exit = ended
    at hjoin
  have hslot : ended.returnSlot = draft.returnSlot := by
    rw [← hended]
    exact returnSlot_jumpIfOpen ..
  have hsupply : ended.supply = draft.supply := by
    rw [← hended]
    exact supply_jumpIfOpen ..
  rw [← hslot, ← hsupply] at hreturns
  rw [← hsupply] at hfit
  rw [finish, hended]
  generalize hreturnSlot : ended.returnSlot = returnSlot at hreturns
  cases hreturns with
  | none =>
    refine ⟨ended.extend [.ret none] ended.supply, rfl, ?_⟩
    have hgrows : ended.Grows 1 (ended.extend [.ret none] ended.supply) := by
      refine grows_extend hjoin.proper (.refl _) (Nat.le_add_right ..) fun i hi => ?_
      rw [List.mem_singleton.1 hi]
      refine ⟨fun operand ty hvalue => ?_, trivial⟩
      cases hvalue
    exact hjoin.trans hgrows
  | @some slot ty hreturn =>
    have hkeeps := ended.supply.keeps_temporary ty
    have hty := Supply.type?_temporary hfit ty
    refine ⟨ended.extend [.load (ended.supply.temporary ty).1 slot ty,
      .ret (some (.var (ended.supply.temporary ty).1, ty))] (ended.supply.temporary ty).2, ?_, ?_⟩
    · exact bind_eq_ok.2 ⟨ty, SymbolTable.typeOf_eq_ok.2 hreturn.1, rfl⟩
    · refine hjoin.trans (grows_extend hjoin.proper hkeeps
        (Nat.le_of_eq (Supply.size_temporary ..)) fun i hi => ?_)
      simp only [List.mem_cons, List.not_mem_nil, or_false] at hi
      rcases hi with rfl | rfl
      · refine ⟨⟨hty, hkeeps.le.types hreturn.1⟩, Supply.isTemporary_temporary hfit ty, ?_⟩
        rw [hkeeps.isTemporary (SymbolTable.lt_size_of_type? hreturn.1), hreturn.2]
      · refine ⟨?_, trivial⟩
        rintro operand ty' ⟨⟩
        exact hty

/-- The draft that lowering starts from has two blocks with nothing but their labels. -/
theorem proper_of_ofSymbol {symbol : SymbolId} (h : Draft.ofSymbol table symbol = .ok draft) :
    draft.function.Proper table ∧ draft.function.blocks.size = 2 ∧ draft.slots = [] ∧
      draft.returnSlot = none := by
  obtain ⟨name, returnType, rfl, hblock⟩ := exists_of_ofSymbol h
  refine ⟨fun j block hb i hi => ?_, rfl, rfl, rfl⟩
  obtain ⟨-, rfl⟩ := hblock hb
  rw [List.mem_singleton.1 hi]
  exact ⟨trivial, trivial⟩

end Flow.Draft

namespace Definition

variable {table table₀ : SymbolTable} {base : Scope}

/-- An accepted function can be lowered. -/
theorem exists_lower {definition : Definition.Typed} {next : Nat}
    (haccepted : definition.Accepted table₀ base next)
    (hbase : ∀ name id, base.find? name ≠ some (.var id)) (hkeeps : table₀.Keeps table)
    (hfit : table.size + definition.extent ≤ UInt32.size) :
    ∃ result, definition.lower table = .ok result ∧ result.1.Proper result.2 ∧
      result.2.size ≤ table.size + definition.extent ∧
      result.1.blocks.size ≤ definition.extent := by
  rw [extent] at hfit ⊢
  obtain ⟨start, hstart, hsymbols, hreturnType⟩ : ∃ start,
      Draft.ofSymbol table definition.symbol = .ok start ∧ start.supply.symbols = table ∧
        start.function.returnType = definition.returnType.map (·.ty) :=
    ⟨_, Draft.ofSymbol_of_get? (hkeeps.get haccepted.heading.function), rfl, rfl⟩
  obtain ⟨hproper, hblocks, hslots, hslot⟩ := Draft.proper_of_ofSymbol hstart
  rw [← hsymbols] at hstart hproper hkeeps hfit ⊢
  obtain ⟨hserves, hsize⟩ := Draft.serves_declareReturn hproper hslot hbase (by omega)
  rw [hreturnType] at hserves
  obtain ⟨opened, hopened, hserves₁, hsize₁⟩ := Draft.exists_declareParameter
    (hkeeps.trans start.keeps_declareReturn) haccepted.heading.parameters haccepted.symbols hserves
    (by omega)
  have hkeeps₁ := (hkeeps.trans start.keeps_declareReturn).trans
    (Draft.keeps_of_declareParameter hopened)
  obtain ⟨last, hlast, hgrows⟩ := Block.exists_lower hkeeps₁ haccepted.bound haccepted.locals
    haccepted.typed hserves₁ (by omega)
  obtain ⟨isOpen, hsteps⟩ := Block.steps_of_lower hkeeps₁ [] haccepted.bound haccepted.locals hlast
  have hserves₂ := hserves₁.steps hsteps hgrows.proper (Nat.le_refl _)
  have hsize₂ := hgrows.symbols
  obtain ⟨complete, hcomplete, hgrows'⟩ := Draft.exists_finish hserves₂.proper hserves₂.returns
    (by omega)
  have hsize₃ := hgrows'.symbols
  refine ⟨(complete.function, complete.supply.symbols), ?_, hgrows'.proper, ?_, ?_⟩
  · exact bind_eq_ok.2 ⟨start, hstart, bind_eq_ok.2 ⟨opened, hopened, bind_eq_ok.2 ⟨last, hlast,
      bind_eq_ok.2 ⟨complete, hcomplete, rfl⟩⟩⟩⟩
  · dsimp only
    omega
  · have hblocks₂ := hgrows.blocks
    rw [Draft.size_of_declareParameter hopened, Draft.size_declareReturn, hblocks] at hblocks₂
    dsimp only
    rw [Draft.size_of_finish hcomplete]
    omega

theorem exists_lowerAll {definitions : List Definition.Typed}
    (haccepted : ∀ d ∈ definitions, ∃ next, d.Accepted table₀ base next)
    (hbase : ∀ name id, base.find? name ≠ some (.var id)) (hkeeps : table₀.Keeps table)
    (hfit : table.size + (definitions.map extent).sum ≤ UInt32.size) :
    ∃ result, lowerAll table definitions = .ok result ∧ (∀ f ∈ result.1, f.Proper result.2) ∧
      result.2.size ≤ table.size + (definitions.map extent).sum ∧
      ∀ f ∈ result.1, f.blocks.size ≤ (definitions.map extent).sum := by
  induction definitions generalizing table with
  | nil => exact ⟨([], table), rfl, by simp, Nat.le_refl _, by simp⟩
  | cons d rest ih =>
    rw [List.map_cons, List.sum_cons] at hfit ⊢
    obtain ⟨next, hd⟩ := haccepted d List.mem_cons_self
    obtain ⟨⟨f, table₁⟩, hlower, hproper, hsize, hblocks⟩ := exists_lower hd hbase hkeeps (by omega)
    dsimp only at hproper hsize hblocks
    have hkeeps₁ : table.Keeps table₁ := keeps_of_lower hlower
    obtain ⟨⟨fs, table₂⟩, hlowerAll, hproper', hsize', hblocks'⟩ :=
      ih (fun e he => haccepted e (List.mem_cons_of_mem _ he)) (hkeeps.trans hkeeps₁) (by omega)
    dsimp only at hproper' hsize' hblocks'
    have hkeeps' : table₁.Keeps table₂ := keeps_of_lowerAll hlowerAll
    refine ⟨(f :: fs, table₂), ?_, ?_, ?_, ?_⟩
    · exact bind_eq_ok.2 ⟨_, hlower, bind_eq_ok.2 ⟨_, hlowerAll, rfl⟩⟩
    · exact List.forall_mem_cons.2 ⟨hproper.keeps hkeeps', hproper'⟩
    · dsimp only
      omega
    · refine List.forall_mem_cons.2 ⟨by omega, fun g hg => ?_⟩
      exact Nat.le_trans (hblocks' g hg) (Nat.le_add_left ..)

end Definition

/-! ## Programs -/

/-- There are handles enough for the symbols and the blocks of a program. -/
def Program.Addressable (program : Program.Typed) (table : SymbolTable) : Prop :=
  table.size + program.extent ≤ UInt32.size

def Flow.Module.Proper (m : Module) : Prop :=
  ∀ f ∈ m.functions, f.Proper m.symbols

/-- An accepted program can be lowered, and comes out typed. -/
theorem Program.exists_lower {text : String} {program : Program.Typed} {table : SymbolTable}
    (hsource : ofSource text = .ok (program, table)) (hfit : program.Addressable table) :
    ∃ m, program.lower table = .ok m ∧ m.Addressable ∧ m.Proper := by
  obtain ⟨hb, ht⟩ := wellTyped_of_ofSource hsource (Nat.le_trans (Nat.le_add_right ..) hfit)
  obtain ⟨⟨fs, table'⟩, hlower, hproper, hsize, hblocks⟩ := Definition.exists_lowerAll
    (accepted hb ht) (Signature.find?_scope_ne_var _) (.refl table) hfit
  refine ⟨⟨table', fs⟩, bind_eq_ok.2 ⟨_, hlower, rfl⟩, ⟨?_, fun f hf => ?_⟩, hproper⟩
  · exact Nat.le_trans hsize hfit
  · exact Nat.le_trans (hblocks f hf) (Nat.le_trans (Nat.le_add_left ..) hfit)

/-- What can be read off an accepted program and its module, with the handles they take. -/
def Program.examine {α : Type} (text : String) (look : Program.Typed → Module → Option α) :
    Option (Nat × α) :=
  (ofSource text).toOption.bind fun r => (r.1.lower r.2).toOption.bind fun m =>
    (look r.1 m).map (r.2.size + r.1.extent, ·)

theorem Program.exists_of_examine {α : Type} {text : String}
    {look : Program.Typed → Module → Option α} {size : Nat} {a : α}
    (h : examine text look = some (size, a)) (hsize : size ≤ UInt32.size) :
    ∃ program table m, ofSource text = .ok (program, table) ∧ program.Addressable table ∧
      program.lower table = .ok m ∧ m.Addressable ∧ look program m = some a := by
  obtain ⟨⟨program, table⟩, hsource, h⟩ := Option.bind_eq_some_iff.1 h
  obtain ⟨m, hlower, h⟩ := Option.bind_eq_some_iff.1 h
  obtain ⟨_, hlook, h⟩ := Option.map_eq_some_iff.1 h
  cases h
  rw [toOption_eq_some] at hsource hlower
  obtain ⟨_, hlower', hm, -⟩ := exists_lower hsource hsize
  cases hlower.symm.trans hlower'
  exact ⟨program, table, m, hsource, hsize, hlower, hm, hlook⟩

end Cinder
