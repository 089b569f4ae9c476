import Cinder.Proofs.Program.Scoping
import Cinder.Typing.Check

/-!
# Well-typed programs

What it means for an expression, a statement and a block to be well typed.  Every
implicit conversion has become a cast, so the rules ask for equal types
throughout.
-/

namespace Cinder

/-! ## Typed expressions -/

def Literal.Fits : Literal → Ty → Prop
  | .boolean _, ty => ty = .bool
  | .float _, ty => ty.isFloating = true
  | .integer _, ty => ty ≠ .bool

def SymbolTable.function? (table : SymbolTable) (id : SymbolId) :
    Option (List SymbolId × Option Ty) :=
  match table.get? id with
  | some ⟨_, .function parameters returnType⟩ => some (parameters, returnType)
  | _ => none

mutual

def Expr.HasType (table : SymbolTable) : Expr SymbolId (Option Ty) → Ty → Prop
  | .literal _ annotation value, ty => annotation = some ty ∧ value.Fits ty
  | .ident _ annotation _ symbol, ty => annotation = some ty ∧ table.type? symbol = some ty
  | .call _ annotation _ symbol arguments, ty =>
    annotation = some ty ∧ ∃ parameters, table.function? symbol = some (parameters, some ty) ∧
      Expr.HaveTypes table arguments parameters
  | .binary _ annotation op _ lhs rhs, ty =>
    annotation = some ty ∧ ∃ operandTy, lhs.HasType table operandTy ∧ rhs.HasType table operandTy ∧
      if op.isComparison then ty = .bool else ty = operandTy ∧ operandTy ≠ .bool
  | .negate _ annotation operand, ty =>
    annotation = some ty ∧ operand.HasType table ty ∧ ty ≠ .bool
  | .cast _ annotation operand target, ty =>
    annotation = some ty ∧ target.ty = ty ∧ ∃ source, operand.HasType table source ∧
      source ≠ ty ∧ source.converts ty = true

def Expr.HaveTypes (table : SymbolTable) : List (Expr SymbolId (Option Ty)) → List SymbolId → Prop
  | argument :: arguments, parameter :: parameters =>
    (∃ ty, table.type? parameter = some ty ∧ argument.HasType table ty) ∧
      Expr.HaveTypes table arguments parameters
  | [], [] => True
  | _, _ => False

end

/-- The expression is well typed, or a call whose function returns nothing. -/
def Expr.WellTyped (table : SymbolTable) (expr : Expr SymbolId (Option Ty)) : Prop :=
  (∃ ty, expr.HasType table ty) ∨
  ∃ span callee symbol arguments parameters, expr = .call span none callee symbol arguments ∧
    table.function? symbol = some (parameters, none) ∧ Expr.HaveTypes table arguments parameters

mutual

def Statement.WellTyped (table : SymbolTable) (returnType : Option Ty) :
    Statement SymbolId (Option Ty) → Prop
  | .declare decl =>
    ∃ ty, table.type? decl.symbol = some ty ∧ ∀ e ∈ decl.initializer, e.HasType table ty
  | .assign _ _ symbol value => ∃ ty, table.type? symbol = some ty ∧ value.HasType table ty
  | .ret _ none => returnType = none
  | .ret _ (some value) => ∃ ty, returnType = some ty ∧ value.HasType table ty
  | .ifThen _ condition positive =>
    condition.HasType table .bool ∧ positive.WellTyped table returnType
  | .ifElse _ condition positive negative =>
    condition.HasType table .bool ∧ positive.WellTyped table returnType ∧
      negative.WellTyped table returnType
  | .expr _ value => value.WellTyped table

def Block.WellTyped (table : SymbolTable) (returnType : Option Ty) :
    Block SymbolId (Option Ty) → Prop
  | .mk _ statements => Statement.AllWellTyped table returnType statements

def Statement.AllWellTyped (table : SymbolTable) (returnType : Option Ty) :
    List (Statement SymbolId (Option Ty)) → Prop
  | [] => True
  | statement :: rest =>
    statement.WellTyped table returnType ∧ Statement.AllWellTyped table returnType rest

end

theorem Expr.HasType.ty_eq {table : SymbolTable} {expr : Expr SymbolId (Option Ty)} {ty : Ty}
    (h : expr.HasType table ty) : expr.ty = some ty := by
  cases expr with
  | _ => exact h.1

/-! ## What tables know -/

/-- The table knows what the names of a scope stand for. -/
structure Scope.TypedIn (scope : Scope) (table : SymbolTable) : Prop where
  var : ∀ {name id}, scope.find? name = some (.var id) → ∃ ty, table.type? id = some ty
  function : ∀ {name id}, scope.find? name = some (.function id) →
    ∃ parameters returnType, table.function? id = some (parameters, returnType) ∧
      ∀ p ∈ parameters, ∃ ty, table.type? p = some ty

namespace SymbolTable

variable {table : SymbolTable} {id : SymbolId}

variable {parameters : List SymbolId} {returnType : Option Ty}

theorem function?_eq_some :
    table.function? id = some (parameters, returnType) ↔
      ∃ name, table.get? id = some ⟨name, .function parameters returnType⟩ := by
  unfold function?
  split
  · rename_i name ps r h
    simp [h]
  · rename_i hne
    constructor
    · intro h
      cases h
    · rintro ⟨name, h⟩
      exact absurd h (hne name parameters returnType)

theorem parametersOf_of_function? (h : table.function? id = some (parameters, returnType)) :
    table.parametersOf id = .ok parameters := by
  obtain ⟨name, h⟩ := function?_eq_some.1 h
  rw [parametersOf, get_eq_ok.2 h]
  rfl

theorem returnTypeOf_of_function? (h : table.function? id = some (parameters, returnType)) :
    table.returnTypeOf id = .ok returnType := by
  obtain ⟨name, h⟩ := function?_eq_some.1 h
  rw [returnTypeOf, get_eq_ok.2 h]
  rfl

end SymbolTable

/-- The second table knows all types and functions that the first one knows. -/
structure SymbolTable.Le (table table' : SymbolTable) : Prop where
  types : ∀ {id ty}, table.type? id = some ty → table'.type? id = some ty
  functions : ∀ {id f}, table.function? id = some f → table'.function? id = some f

theorem SymbolTable.Le.trans {table table' table'' : SymbolTable} (h : table.Le table')
    (h' : table'.Le table'') : table.Le table'' :=
  ⟨fun ht => h'.types (h.types ht), fun hf => h'.functions (h.functions hf)⟩

section

variable {table table' : SymbolTable} (hle : table.Le table')

include hle

theorem Scope.TypedIn.mono {scope : Scope} (h : scope.TypedIn table) : scope.TypedIn table' := by
  refine ⟨fun hfind => ?_, fun hfind => ?_⟩
  · obtain ⟨ty, hty⟩ := h.var hfind
    exact ⟨ty, hle.types hty⟩
  · obtain ⟨parameters, returnType, hf, hparameters⟩ := h.function hfind
    refine ⟨parameters, returnType, hle.functions hf, fun p hp => ?_⟩
    obtain ⟨ty, hty⟩ := hparameters p hp
    exact ⟨ty, hle.types hty⟩

mutual

theorem Expr.HasType.mono : ∀ {expr : Expr SymbolId (Option Ty)} {ty : Ty},
    expr.HasType table ty → expr.HasType table' ty
  | .literal .., _, h => h
  | .ident .., _, h => ⟨h.1, hle.types h.2⟩
  | .call .., _, ⟨h, parameters, hf, harguments⟩ =>
    ⟨h, parameters, hle.functions hf, Expr.HaveTypes.mono harguments⟩
  | .binary .., _, ⟨h, operandTy, hlhs, hrhs, hty⟩ => ⟨h, operandTy, hlhs.mono, hrhs.mono, hty⟩
  | .negate .., _, ⟨h, hoperand, hne⟩ => ⟨h, hoperand.mono, hne⟩
  | .cast .., _, ⟨h, htarget, source, hoperand, hcast⟩ => ⟨h, htarget, source, hoperand.mono, hcast⟩

theorem Expr.HaveTypes.mono : ∀ {exprs : List (Expr SymbolId (Option Ty))}
    {parameters : List SymbolId}, Expr.HaveTypes table exprs parameters →
      Expr.HaveTypes table' exprs parameters
  | [], [], _ => trivial
  | _ :: _, _ :: _, ⟨⟨ty, hty, h⟩, hrest⟩ => ⟨⟨ty, hle.types hty, h.mono⟩, hrest.mono⟩

end

theorem Expr.WellTyped.mono {expr : Expr SymbolId (Option Ty)} (h : expr.WellTyped table) :
    expr.WellTyped table' := by
  rcases h with ⟨ty, h⟩ | ⟨span, callee, symbol, arguments, parameters, rfl, hf, harguments⟩
  · exact .inl ⟨ty, h.mono hle⟩
  · exact .inr ⟨span, callee, symbol, arguments, parameters, rfl, hle.functions hf,
      harguments.mono hle⟩

end

mutual

theorem Statement.WellTyped.mono {table table' : SymbolTable} (hle : table.Le table')
    {returnType : Option Ty} : ∀ {statement : Statement SymbolId (Option Ty)},
      statement.WellTyped table returnType → statement.WellTyped table' returnType
  | .declare _, ⟨ty, hty, h⟩ => ⟨ty, hle.types hty, fun e he => (h e he).mono hle⟩
  | .assign .., ⟨ty, hty, h⟩ => ⟨ty, hle.types hty, h.mono hle⟩
  | .ret _ none, h => h
  | .ret _ (some _), ⟨ty, hty, h⟩ => ⟨ty, hty, h.mono hle⟩
  | .ifThen .., ⟨hcondition, hpositive⟩ => ⟨hcondition.mono hle, hpositive.mono hle⟩
  | .ifElse .., ⟨hcondition, hpositive, hnegative⟩ =>
    ⟨hcondition.mono hle, hpositive.mono hle, hnegative.mono hle⟩
  | .expr .., h => Expr.WellTyped.mono hle h

theorem Block.WellTyped.mono {table table' : SymbolTable} (hle : table.Le table')
    {returnType : Option Ty} : ∀ {block : Block SymbolId (Option Ty)},
      block.WellTyped table returnType → block.WellTyped table' returnType
  | .mk .., h => Statement.AllWellTyped.mono hle h

theorem Statement.AllWellTyped.mono {table table' : SymbolTable} (hle : table.Le table')
    {returnType : Option Ty} : ∀ {statements : List (Statement SymbolId (Option Ty))},
      Statement.AllWellTyped table returnType statements →
        Statement.AllWellTyped table' returnType statements
  | [], _ => trivial
  | _ :: _, ⟨h, hrest⟩ => ⟨h.mono hle, hrest.mono hle⟩

end

end Cinder
