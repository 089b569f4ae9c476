import Cinder.Proofs.Flow.Normal
import Cinder.Proofs.Typing.Judgement

/-!
# Typed instructions

The types that an instruction names are the types of what it reads and writes.
Passes compute with constants, whose types are those of the operations they stand
for, so everything stays typed until code is generated.
-/

namespace Cinder

/-! ## Types of constants -/

namespace Constant

theorem ty_cast (c : Constant) (ty : Ty) : (c.cast ty).ty = ty := by
  cases ty with
  | bool => rfl
  | int width signed => cases c <;> rfl
  | float width =>
    cases c with
    | float v x => cases v <;> cases width <;> rfl
    | _ => rfl

theorem ty_floatBinary {w : FloatWidth} (op : Operator) (x y : FloatBits w) :
    (floatBinary op x y).ty = if op.isComparison then .bool else .float w := by
  cases op <;> rfl

theorem ty_intBinary {width : Width} {signed : Bool} {op : Operator} {a b : Wide} {c : Constant}
    (h : intBinary width signed op a b = some c) :
    c.ty = if op.isComparison then .bool else .int width signed := by
  cases op with
  | div =>
    rw [intBinary] at h
    split at h <;> cases h
    rfl
  | _ => cases h; rfl

theorem ty_binary {op : Operator} {a b c : Constant} (h : a.binary op b = some c) :
    c.ty = if op.isComparison then .bool else a.ty := by
  unfold binary at h
  split at h
  · cases h
    exact ty_floatBinary ..
  · cases h
    exact ty_floatBinary ..
  · cases op <;> cases h <;> rfl
  · split at h
    · exact ty_intBinary h
    · cases h
  · cases h

end Constant

namespace SymbolTable

variable {table table' : SymbolTable} {id : SymbolId}

/-- A table that has all symbols of another one knows all that it knows. -/
theorem Keeps.le (h : table.Keeps table') : table.Le table' := by
  constructor
  · intro id ty hty
    obtain ⟨name, origin, hget⟩ := type?_eq_some.1 hty
    exact type?_eq_some.2 ⟨name, origin, h.get hget⟩
  · rintro id ⟨parameters, returnType⟩ hf
    obtain ⟨name, hget⟩ := function?_eq_some.1 hf
    exact function?_eq_some.2 ⟨name, h.get hget⟩

theorem lt_size_of_type? {ty : Ty} (h : table.type? id = some ty) : id < table.size := by
  obtain ⟨name, origin, hget⟩ := type?_eq_some.1 h
  exact lt_size_of_get? hget

theorem lt_size_of_isTemporary (h : table.isTemporary id = true) : id < table.size := by
  unfold isTemporary at h
  split at h
  · rename_i hget
    exact lt_size_of_get? hget
  · cases h

end SymbolTable

namespace Flow

variable {table table' : SymbolTable}

/-! ## Instructions -/

def Operand.HasType (table : SymbolTable) : Operand → Ty → Prop
  | .constant c, ty => c.ty = ty
  | .var v, ty => table.type? v.symbol = some ty

theorem Operand.HasType.mono {operand : Operand} {ty : Ty} (h : operand.HasType table ty)
    (hle : table.Le table') : operand.HasType table' ty := by
  cases operand with
  | constant c => exact h
  | var v => exact hle.types h

namespace Instruction

/-- The types that an instruction names are those of its operands and its result. -/
def Typed (table : SymbolTable) : Instruction → Prop
  | .branch condition _ => condition.HasType table .bool
  | .call result callee arguments =>
    ∃ parameters returnType, table.function? callee = some (parameters, returnType) ∧
      (∀ v ∈ result, ∃ ty, returnType = some ty ∧ table.type? v.symbol = some ty) ∧
      List.Forall₂ (fun argument parameter =>
        ∃ ty, Operand.HasType table argument ty ∧ table.type? parameter = some ty)
        arguments parameters
  | .ret value => ∀ operand ty, value = some (operand, ty) → operand.HasType table ty
  | .binary result lhs op rhs operandTy resultTy =>
    table.type? result.symbol = some resultTy ∧ lhs.HasType table operandTy ∧
      rhs.HasType table operandTy ∧ resultTy = if op.isComparison then .bool else operandTy
  | .cast result source sourceTy targetTy =>
    table.type? result.symbol = some targetTy ∧ source.HasType table sourceTy ∧
      sourceTy ≠ targetTy ∧ sourceTy.converts targetTy = true
  | .store destination value ty =>
    table.type? destination.symbol = some ty ∧ value.HasType table ty
  | .load result source ty =>
    table.type? result.symbol = some ty ∧ table.type? source.symbol = some ty
  | _ => True

variable {i : Instruction}

theorem Typed.mono (h : i.Typed table) (hle : table.Le table') : i.Typed table' := by
  cases i with
  | branch condition target => exact Operand.HasType.mono h hle
  | call result callee arguments =>
    obtain ⟨parameters, returnType, hf, hresult, harguments⟩ := h
    refine ⟨parameters, returnType, hle.functions hf, ?_, harguments.imp ?_⟩
    · intro v hv
      obtain ⟨ty, hreturn, hty⟩ := hresult v hv
      exact ⟨ty, hreturn, hle.types hty⟩
    · rintro argument parameter ⟨ty, hargument, hparameter⟩
      exact ⟨ty, hargument.mono hle, hle.types hparameter⟩
  | ret value => exact fun operand ty hvalue => (h operand ty hvalue).mono hle
  | binary => exact ⟨hle.types h.1, h.2.1.mono hle, h.2.2.1.mono hle, h.2.2.2⟩
  | cast => exact ⟨hle.types h.1, h.2.1.mono hle, h.2.2⟩
  | store => exact ⟨hle.types h.1, h.2.mono hle⟩
  | load => exact ⟨hle.types h.1, hle.types h.2⟩
  | _ => trivial

theorem Typed.exists_type (h : i.Typed table) {v : Variable}
    (hv : i.definition = some v ∨ v ∈ i.uses) : ∃ ty, table.type? v.symbol = some ty := by
  rw [mem_uses] at hv
  cases i with
  | call result callee arguments =>
    obtain ⟨parameters, returnType, -, hresult, harguments⟩ := h
    rcases hv with hv | hv
    · obtain ⟨ty, -, hty⟩ := hresult v hv
      exact ⟨ty, hty⟩
    · obtain ⟨parameter, -, ty, hty, -⟩ := forall₂_exists_left harguments.flip hv
      exact ⟨ty, hty⟩
  | ret value =>
    cases value with
    | none => simp [definition, operands] at hv
    | some p =>
      simp only [definition, operands, reduceCtorEq, Option.toList_some, List.map_cons,
        List.map_nil, List.mem_singleton, false_or] at hv
      exact ⟨p.2, h (.var v) p.2 (by rw [hv])⟩
  | binary result lhs op rhs operandTy resultTy =>
    obtain ⟨hresult, hlhs, hrhs, -⟩ := h
    simp only [definition, operands, Option.some.injEq, List.mem_cons, List.not_mem_nil,
      or_false] at hv
    rcases hv with rfl | rfl | rfl
    · exact ⟨_, hresult⟩
    · exact ⟨_, hlhs⟩
    · exact ⟨_, hrhs⟩
  | cast result source sourceTy targetTy =>
    simp only [definition, operands, Option.some.injEq, List.mem_singleton] at hv
    rcases hv with rfl | rfl
    · exact ⟨_, h.1⟩
    · exact ⟨_, h.2.1⟩
  | branch condition target =>
    simp only [definition, operands, reduceCtorEq, List.mem_singleton, false_or] at hv
    subst hv
    exact ⟨_, h⟩
  | store destination value ty =>
    simp only [definition, operands, Option.some.injEq, List.mem_singleton] at hv
    rcases hv with rfl | rfl
    · exact ⟨_, h.1⟩
    · exact ⟨_, h.2⟩
  | load result source ty =>
    simp only [definition, operands, Option.some.injEq, List.mem_singleton,
      Operand.var.injEq] at hv
    rcases hv with rfl | rfl
    · exact ⟨_, h.1⟩
    · exact ⟨_, h.2⟩
  | _ => simp [definition, operands] at hv

structure Proper (table : SymbolTable) (i : Instruction) : Prop where
  typed : i.Typed table
  regular : i.Regular table

theorem Proper.keeps (h : i.Proper table) (hkeeps : table.Keeps table') : i.Proper table' := by
  refine ⟨h.typed.mono hkeeps.le, ?_⟩
  obtain ⟨htyped, hregular⟩ := h
  have htemp : ∀ {id}, table.isTemporary id = true → table'.isTemporary id = true := by
    intro id hid
    rw [hkeeps.isTemporary (SymbolTable.lt_size_of_isTemporary hid), hid]
  cases i with
  | binary => exact htemp hregular
  | cast => exact htemp hregular
  | load result source ty =>
    refine ⟨htemp hregular.1, ?_⟩
    rw [hkeeps.isTemporary (SymbolTable.lt_size_of_type? htyped.2), hregular.2]
  | _ => trivial

/-! ## Rewrites -/

theorem Typed.fold (h : i.Typed table) : i.fold.Typed table := by
  unfold Instruction.fold fold?
  split
  · rename_i result lhs op rhs operandTy resultTy
    cases hc : lhs.binary op rhs with
    | none => exact h
    | some value =>
      obtain ⟨hresult, hlhs, -, hty⟩ := h
      refine ⟨hresult, ?_⟩
      change value.ty = resultTy
      rw [Constant.ty_binary hc, show lhs.ty = operandTy from hlhs, hty]
  · exact ⟨h.1, Constant.ty_cast ..⟩
  · exact h

theorem Typed.mapReplaceable {σ : Operand → Operand} (h : i.Typed table)
    (hσ : ∀ o ty, o.HasType table ty → (σ o).HasType table ty) :
    (i.mapReplaceable σ).Typed table := by
  cases i with
  | branch condition target => exact hσ condition _ h
  | call result callee arguments =>
    obtain ⟨parameters, returnType, hf, hresult, harguments⟩ := h
    refine ⟨parameters, returnType, hf, hresult, ?_⟩
    rw [List.forall₂_map_left_iff]
    refine harguments.imp ?_
    rintro argument parameter ⟨ty, hargument, hparameter⟩
    exact ⟨ty, hσ argument ty hargument, hparameter⟩
  | ret value =>
    intro operand ty hvalue
    obtain ⟨⟨o, ty'⟩, ho, hpair⟩ := Option.map_eq_some_iff.1 hvalue
    cases hpair
    exact hσ o ty (h o ty ho)
  | binary => exact ⟨h.1, hσ _ _ h.2.1, hσ _ _ h.2.2.1, h.2.2.2⟩
  | cast => exact ⟨h.1, hσ _ _ h.2.1, h.2.2⟩
  | store => exact ⟨h.1, hσ _ _ h.2⟩
  | load => exact h
  | _ => trivial

theorem Typed.retarget (h : i.Typed table) (source target : BlockId) :
    (i.retarget source target).Typed table := by
  cases i with
  | goto => trivial
  | _ => exact h

theorem Regular.retarget (h : i.Regular table) (source target : BlockId) :
    (i.retarget source target).Regular table := by
  cases i <;> exact h

end Instruction

theorem Operand.HasType.propagate {known : List (Variable × Constant)}
    (hknown : ∀ v c, (v, c) ∈ known → table.type? v.symbol = some c.ty) {operand : Operand}
    {ty : Ty} (h : operand.HasType table ty) : (operand.propagate known).HasType table ty := by
  cases operand with
  | constant c => exact h
  | var v =>
    rw [Operand.propagate]
    cases hlookup : known.lookup v with
    | none => exact h
    | some c =>
      have hty := hknown v c (mem_of_lookup hlookup)
      exact Option.some.inj (hty.symm.trans h)

namespace Block

variable {used : VariableSet} {f : Function} {block new : Block}

theorem type?_of_mem_known (h : ∀ i ∈ block.instructions, i.Typed table) {v : Variable}
    {c : Constant} (hmem : (v, c) ∈ block.known table) : table.type? v.symbol = some c.ty := by
  obtain ⟨i, hi, hknown⟩ := List.mem_filterMap.1 (List.mem_reverse.1 hmem)
  obtain ⟨⟨ty, rfl⟩, -⟩ := Instruction.knowledge?_eq_some hknown
  obtain ⟨hdestination, hvalue⟩ := h _ hi
  rw [hdestination]
  exact congrArg some hvalue.symm

theorem Rewrite.proper (h : block.Rewrite table used f new)
    (hb : ∀ i ∈ block.instructions, i.Proper table) : ∀ i ∈ new.instructions, i.Proper table := by
  intro i hi
  cases h with
  | fold =>
    obtain ⟨j, hj, rfl⟩ := List.mem_map.1 hi
    exact ⟨(hb j hj).typed.fold, (hb j hj).regular.fold⟩
  | propagate =>
    obtain ⟨j, hj, rfl⟩ := List.mem_map.1 hi
    have hknown := fun v c => @type?_of_mem_known table block (fun i hi => (hb i hi).typed) v c
    exact ⟨(hb j hj).typed.mapReplaceable fun o ty ho => ho.propagate hknown,
      (hb j hj).regular.mapReplaceable _⟩
  | prune => exact hb i (mem_of_mem_prune hi)
  | decide hd =>
    rcases mem_of_decideBranch hd hi with hi | ⟨t, condition, rfl, -⟩
    · exact hb i hi
    · exact ⟨trivial, trivial⟩
  | redirect hlead hlast hend =>
    obtain ⟨j, hj, rfl⟩ := List.mem_map.1 hi
    exact ⟨(hb j hj).typed.retarget .., (hb j hj).regular.retarget ..⟩

end Block

namespace Function

def Proper (table : SymbolTable) (f : Function) : Prop :=
  ∀ j block, f.block? j = some block → ∀ i ∈ block.instructions, i.Proper table

variable {f g : Function}

theorem Proper.keeps (h : f.Proper table) (hkeeps : table.Keeps table') : f.Proper table' :=
  fun j block hb i hi => (h j block hb i hi).keeps hkeeps

theorem Proper.rewrite {used : VariableSet} {id : BlockId} (h : f.Proper table)
    (hrw : f.Rewrite table used id g) : g.Proper table := by
  obtain ⟨block, new, hb, hrw, rfl⟩ := hrw
  intro j b hj
  exact forall_setBlock hb (Q := fun _ b => ∀ i ∈ b.instructions, i.Proper table) (h _ _)
    (hrw.proper (h _ _ hb)) hj

end Function

end Flow

end Cinder
