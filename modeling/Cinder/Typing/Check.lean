import Cinder.Program.Parse
import Cinder.Program.ScopeStack
import Cinder.Typing.Rules

/-!
# Type checking

Gives every expression its type and makes every implicit conversion explicit as a
cast.  The context of an expression says which type it would like, which only
literals listen to; a value of another type is converted afterwards.
-/

namespace Cinder

namespace Expr

def isInteger {σ τ : Type} : Expr σ τ → Bool
  | .literal _ _ (.integer _) => true
  | .negate _ _ operand => operand.isInteger
  | _ => false

/-- Converts a value of a known type, unless it has the wanted type already. -/
def coerce (expr : Expr SymbolId (Option Ty)) (source target : Ty) :
    Except Failure (Expr SymbolId (Option Ty)) :=
  if source = target then .ok expr
  else do
    requireConversion source target expr.span
    return .cast expr.span (some target) expr ⟨target, expr.span⟩

/-- The parameters of a function that is called with a number of arguments. -/
def requireArity (table : SymbolTable) (callee : Ident) (symbol : SymbolId) (supplied : Nat)
    (span : Span) : Except Failure (List SymbolId) := do
  let parameters ← table.parametersOf symbol
  if parameters.length = supplied then return parameters
  else reject (.argumentCount callee.name parameters.length supplied) span

mutual

def check (table : SymbolTable) (expected : Option Ty) :
    Expr SymbolId Unit → Except Failure (Expr SymbolId (Option Ty) × Ty)
  | .literal span _ value => do
    let ty ← value.type false expected span
    return (.literal span (some ty) value, ty)
  | .ident span _ name symbol => do
    let ty ← table.typeOf symbol
    return (.ident span (some ty) name symbol, ty)
  | .call span _ callee symbol arguments => do
    let parameters ← requireArity table callee symbol arguments.length span
    let arguments ← checkArguments table arguments parameters
    match ← table.returnTypeOf symbol with
    | some ty => return (.call span (some ty) callee symbol arguments, ty)
    | none => reject (.voidCall callee.name) span
  | .binary span _ op opSpan lhs rhs => do
    let hint := if op.isComparison then none else expected
    let ((lhs, lhsTy), (rhs, rhsTy)) ←
      if lhs.isInteger && !rhs.isInteger then do
        let rhs ← check table hint rhs
        pure (← check table (some rhs.2) lhs, rhs)
      else do
        let lhs ← check table hint lhs
        pure (lhs, ← check table (some lhs.2) rhs)
    match lhsTy.unify rhsTy with
    | none => reject (.operandMismatch lhsTy rhsTy op) opSpan
    | some ty =>
      if ty.isBoolean && !op.isComparison then reject (.booleanOperand op) opSpan
      let lhs ← lhs.coerce lhsTy ty
      let rhs ← rhs.coerce rhsTy ty
      let result := if op.isComparison then .bool else ty
      return (.binary span (some result) op opSpan lhs rhs, result)
  | .negate span _ (.literal inner _ value) => do
    let ty ← value.type true expected inner
    if ty.isBoolean then reject .booleanNegation span
    return (.negate span (some ty) (.literal inner (some ty) value), ty)
  | .negate span _ operand => do
    let (operand, ty) ← check table expected operand
    if ty.isBoolean then reject .booleanNegation span
    return (.negate span (some ty) operand, ty)
  | .cast span _ operand target => do
    let (operand, source) ← check table none operand
    requireConversion source target.ty span
    -- a cast to the type a value has already is dropped
    if source = target.ty then return (operand, source)
    return (.cast span (some target.ty) operand target, target.ty)

/-- Types the arguments of a call and converts them to the parameters' types. -/
def checkArguments (table : SymbolTable) :
    List (Expr SymbolId Unit) → List SymbolId → Except Failure (List (Expr SymbolId (Option Ty)))
  | argument :: arguments, parameter :: parameters => do
    let target ← table.typeOf parameter
    let (argument, source) ← check table (some target) argument
    let argument ← argument.coerce source target
    return argument :: (← checkArguments table arguments parameters)
  | _, _ => .ok []

end

/-- Types an expression whose value is not used.  Only here a call may return
nothing. -/
def checkEffect (table : SymbolTable) :
    Expr SymbolId Unit → Except Failure (Expr SymbolId (Option Ty))
  | .call span _ callee symbol arguments => do
    let parameters ← requireArity table callee symbol arguments.length span
    let arguments ← checkArguments table arguments parameters
    return .call span (← table.returnTypeOf symbol) callee symbol arguments
  | expr => return (← expr.check table none).1

def checkAt (table : SymbolTable) (target : Ty) (expr : Expr SymbolId Unit) :
    Except Failure (Expr SymbolId (Option Ty)) := do
  let (expr, source) ← expr.check table (some target)
  expr.coerce source target

end Expr

namespace Local

/-- Types a declaration; its variable gets the written type or the type of the
initializer. -/
def check (table : SymbolTable) (decl : Local SymbolId Unit) :
    Except Failure (Local SymbolId (Option Ty) × SymbolTable) := do
  let (initializer, ty) ← match decl.initializer, decl.ty with
    | some initializer, some target =>
      pure (some (← initializer.checkAt table target.ty), target.ty)
    | some initializer, none =>
      let (initializer, ty) ← initializer.check table none
      pure (some initializer, ty)
    | none, some target => pure (none, target.ty)
    | none, none => reject (.bareVariable decl.name.name) decl.span
  let table ← table.setType decl.symbol ty
  return (⟨decl.span, decl.name, decl.ty, initializer, decl.symbol⟩, table)

end Local

mutual

def Statement.check (returnType : Option Ty) (table : SymbolTable) :
    Statement SymbolId Unit → Except Failure (Statement SymbolId (Option Ty) × SymbolTable)
  | .declare decl => do
    let (decl, table) ← decl.check table
    return (.declare decl, table)
  | .assign span target symbol value => do
    let value ← value.checkAt table (← table.typeOf symbol)
    return (.assign span target symbol value, table)
  | .ret span value =>
    match value, returnType with
    | some value, some ty => return (.ret span (some (← value.checkAt table ty)), table)
    | some value, none => reject .unexpectedReturnValue value.span
    | none, some ty => reject (.missingReturnValue ty) span
    | none, none => return (.ret span none, table)
  | .ifThen span condition positive => do
    let condition ← condition.checkAt table .bool
    let (positive, table) ← positive.check returnType table
    return (.ifThen span condition positive, table)
  | .ifElse span condition positive negative => do
    let condition ← condition.checkAt table .bool
    let (positive, table) ← positive.check returnType table
    let (negative, table) ← negative.check returnType table
    return (.ifElse span condition positive negative, table)
  | .expr span value => do
    return (.expr span (← value.checkEffect table), table)

def Block.check (returnType : Option Ty) (table : SymbolTable) :
    Block SymbolId Unit → Except Failure (Block SymbolId (Option Ty) × SymbolTable)
  | .mk span statements => do
    let (statements, table) ← Statement.checkAll returnType table statements
    return (.mk span statements, table)

def Statement.checkAll (returnType : Option Ty) (table : SymbolTable) :
    List (Statement SymbolId Unit) →
      Except Failure (List (Statement SymbolId (Option Ty)) × SymbolTable)
  | [] => .ok ([], table)
  | statement :: rest => do
    let (statement, table) ← statement.check returnType table
    let (rest, table) ← Statement.checkAll returnType table rest
    return (statement :: rest, table)

end

mutual

def Statement.returns {σ τ : Type} : Statement σ τ → Bool
  | .ret .. => true
  | .ifElse _ _ positive negative => positive.returns && negative.returns
  | _ => false

def Block.returns {σ τ : Type} : Block σ τ → Bool
  | .mk _ statements => Statement.anyReturns statements

def Statement.anyReturns {σ τ : Type} : List (Statement σ τ) → Bool
  | [] => false
  | statement :: rest => statement.returns || Statement.anyReturns rest

end

namespace Definition

def declareTypes (table : SymbolTable) (function : Definition SymbolId Unit) :
    Except Failure SymbolTable := do
  let table ← function.parameters.foldlM (fun table p => table.setType p.symbol p.ty.ty) table
  match ← table.get function.symbol with
  | ⟨_, .function parameters _⟩ =>
    return table.setKind function.symbol
      (.function parameters (function.returnType.map (·.ty)))
  | _ => return table

/-- Types the body of a function, which has to return on every path if the
function has a return type. -/
def check (table : SymbolTable) (function : Definition SymbolId Unit) :
    Except Failure (Definition SymbolId (Option Ty) × SymbolTable) := do
  let returnType := function.returnType.map (·.ty)
  let (body, table) ← function.body.check returnType table
  if let some ty := returnType then
    if !body.returns then reject (.missingReturn function.name.name ty) function.name.span
  return (⟨function.span, function.name, function.parameters, function.returnType, body,
    function.symbol⟩, table)

def checkAll (table : SymbolTable) :
    List (Definition SymbolId Unit) →
      Except Failure (List (Definition SymbolId (Option Ty)) × SymbolTable)
  | [] => .ok ([], table)
  | function :: rest => do
    let (function, table) ← function.check table
    let (rest, table) ← checkAll table rest
    return (function :: rest, table)

end Definition

namespace Program

/-- Types a program.  All headings come first, so that a function can be called
before its definition. -/
def check (program : Program.Scoped) (table : SymbolTable) :
    Except Failure (Program.Typed × SymbolTable) := do
  let table ← program.functions.foldlM Definition.declareTypes table
  let (functions, table) ← Definition.checkAll table program.functions
  return (⟨functions⟩, table)

/-- Requires a function `main` without parameters, where a program starts. -/
def requireMain {σ τ : Type} (program : Program σ τ) : Except Diagnostic Unit :=
  match program.functions.find? (·.name.name == "main") with
  | none => .error ⟨.missingMain, ⟨0, 0⟩⟩
  | some function =>
    if function.parameters.isEmpty then .ok ()
    else .error ⟨.mainParameters, function.name.span⟩

def ofSource (text : String) : Except Failure (Program.Typed × SymbolTable) := do
  let parsed ← parse text
  let (program, table) ← parsed.bindNames
  program.check table

end Program

end Cinder
