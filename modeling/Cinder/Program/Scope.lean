import Cinder.Diagnostic
import Cinder.Program.Basic
import Cinder.SymbolTable

/-!
# Scoping

The rules by which names are bound, told by handing the visible names down the tree.
Functions are visible in the whole program, parameters in the body of their function,
and a local variable from the statement after its declaration to the end of its block.
Inner declarations hide outer ones of the same name, and later ones of a block
hide earlier ones.

Symbols are numbered as they are declared: all functions first, each followed by
its parameters, then the local variables in the order of the text.
-/

namespace Cinder

/-- What a name stands for: a declaration, known by the symbol that it carries. -/
inductive Referent (σ : Type) where
  | function (symbol : σ)
  | var (symbol : σ)
deriving DecidableEq, Repr

def SymbolTable.referentOf (table : SymbolTable) (id : SymbolId) : Referent SymbolId :=
  match table.get? id with
  | some ⟨_, .function ..⟩ => .function id
  | _ => .var id

/-- The visible names, innermost declaration first. -/
abbrev Scope := List (String × Referent SymbolId)

namespace Scope

def declare (scope : Scope) (name : String) (referent : Referent SymbolId) : Scope :=
  (name, referent) :: scope

def find? (scope : Scope) (name : String) : Option (Referent SymbolId) :=
  scope.lookup name

def variableOf (scope : Scope) (name : Ident) : Except Diagnostic SymbolId :=
  match scope.find? name.name with
  | some (.var symbol) => .ok symbol
  | some (.function _) => .error ⟨.functionAsVariable name.name, name.span⟩
  | none => .error ⟨.unknownVariable name.name, name.span⟩

def functionOf (scope : Scope) (name : Ident) : Except Diagnostic SymbolId :=
  match scope.find? name.name with
  | some (.function symbol) => .ok symbol
  | some (.var _) => .error ⟨.calledVariable name.name, name.span⟩
  | none => .error ⟨.unknownFunction name.name, name.span⟩

end Scope

namespace Expr

mutual

def resolve (scope : Scope) : Expr Unit Unit → Except Diagnostic (Expr SymbolId Unit)
  | .literal span ty value => .ok (.literal span ty value)
  | .ident span ty name _ => do
    return .ident span ty name (← scope.variableOf name)
  | .call span ty callee _ arguments => do
    let symbol ← scope.functionOf callee
    return .call span ty callee symbol (← resolveAll scope arguments)
  | .binary span ty op opSpan lhs rhs => do
    let lhs ← lhs.resolve scope
    return .binary span ty op opSpan lhs (← rhs.resolve scope)
  | .negate span ty operand => do
    return .negate span ty (← operand.resolve scope)
  | .cast span ty operand target => do
    return .cast span ty (← operand.resolve scope) target

def resolveAll (scope : Scope) :
    List (Expr Unit Unit) → Except Diagnostic (List (Expr SymbolId Unit))
  | [] => .ok []
  | expr :: rest => do
    let expr ← expr.resolve scope
    return expr :: (← resolveAll scope rest)

end

def resolve? (scope : Scope) :
    Option (Expr Unit Unit) → Except Diagnostic (Option (Expr SymbolId Unit))
  | none => .ok none
  | some expr => return some (← expr.resolve scope)

end Expr

mutual

/-- Binds the names of a statement; what it declares is added to the scope and to
the table. -/
def Statement.resolve (scope : Scope) (table : SymbolTable) :
    Statement Unit Unit → Except Diagnostic (Statement SymbolId Unit × Scope × SymbolTable)
  | .declare decl => do
    let initializer ← Expr.resolve? scope decl.initializer
    let symbol := table.next
    let table := table.declareVariable decl.name.name none .user
    return (.declare ⟨decl.span, decl.name, decl.ty, initializer, symbol⟩,
      scope.declare decl.name.name (table.referentOf symbol), table)
  | .assign span target _ value => do
    let value ← value.resolve scope
    return (.assign span target (← scope.variableOf target) value, scope, table)
  | .ret span value => do
    return (.ret span (← Expr.resolve? scope value), scope, table)
  | .ifThen span condition positive => do
    let condition ← condition.resolve scope
    let (positive, table) ← positive.resolve scope table
    return (.ifThen span condition positive, scope, table)
  | .ifElse span condition positive negative => do
    let condition ← condition.resolve scope
    let (positive, table) ← positive.resolve scope table
    let (negative, table) ← negative.resolve scope table
    return (.ifElse span condition positive negative, scope, table)
  | .expr span value => do
    return (.expr span (← value.resolve scope), scope, table)

def Block.resolve (scope : Scope) (table : SymbolTable) :
    Block Unit Unit → Except Diagnostic (Block SymbolId Unit × SymbolTable)
  | .mk span statements => do
    let (statements, table) ← Statement.resolveAll scope table statements
    return (.mk span statements, table)

def Statement.resolveAll (scope : Scope) (table : SymbolTable) :
    List (Statement Unit Unit) → Except Diagnostic (List (Statement SymbolId Unit) × SymbolTable)
  | [] => .ok ([], table)
  | statement :: rest => do
    let (statement, scope, table) ← statement.resolve scope table
    let (rest, table) ← Statement.resolveAll scope table rest
    return (statement :: rest, table)

end

def Parameter.repeated? (seen : List String) :
    List (Parameter Unit) → Option (Parameter Unit)
  | [] => none
  | parameter :: rest =>
    if parameter.name.name ∈ seen then some parameter
    else repeated? (parameter.name.name :: seen) rest

def Parameter.declareAll (table : SymbolTable) :
    List (Parameter Unit) → List (Parameter SymbolId) × SymbolTable
  | [] => ([], table)
  | parameter :: rest =>
    let bound := ⟨parameter.span, parameter.name, parameter.ty, table.next⟩
    let (rest, table) :=
      declareAll (table.declareVariable parameter.name.name none .parameter) rest
    (bound :: rest, table)

def Scope.enter (scope : Scope) (table : SymbolTable) (parameters : List (Parameter SymbolId)) :
    Scope :=
  parameters.foldl (fun scope p => scope.declare p.name.name (table.referentOf p.symbol)) scope

/-- A function whose heading has been bound and whose body has not. -/
structure Heading where
  source : Definition Unit Unit
  symbol : SymbolId
  parameters : List (Parameter SymbolId)

namespace Definition

def enter (table : SymbolTable) (function : Definition Unit Unit) : Heading × SymbolTable :=
  let symbol := table.next
  let (parameters, table) :=
    Parameter.declareAll (table.declareFunction function.name.name) function.parameters
  (⟨function, symbol, parameters⟩, table.setParameters symbol (parameters.map (·.symbol)))

def declare (scope : Scope) (table : SymbolTable) (function : Definition Unit Unit) :
    Except Diagnostic (Heading × SymbolTable) := do
  if (scope.find? function.name.name).isSome then
    throw ⟨.duplicateFunction function.name.name, function.name.span⟩
  if let some parameter := Parameter.repeated? [] function.parameters then
    throw ⟨.duplicateParameter parameter.name.name, parameter.name.span⟩
  return function.enter table

def declareAll (scope : Scope) (table : SymbolTable) :
    List (Definition Unit Unit) → Except Diagnostic (List Heading × Scope × SymbolTable)
  | [] => .ok ([], scope, table)
  | function :: rest => do
    let (heading, table) ← function.declare scope table
    let scope := scope.declare function.name.name (table.referentOf heading.symbol)
    let (rest, scope, table) ← declareAll scope table rest
    return (heading :: rest, scope, table)

end Definition

namespace Heading

def resolve (scope : Scope) (table : SymbolTable) (heading : Heading) :
    Except Diagnostic (Definition SymbolId Unit × SymbolTable) := do
  let source := heading.source
  let (body, table) ←
    source.body.resolve (scope.enter table heading.parameters) table
  return (⟨source.span, source.name, heading.parameters, source.returnType, body,
    heading.symbol⟩, table)

def resolveAll (scope : Scope) (table : SymbolTable) :
    List Heading → Except Diagnostic (List (Definition SymbolId Unit) × SymbolTable)
  | [] => .ok ([], table)
  | heading :: rest => do
    let (function, table) ← heading.resolve scope table
    let (rest, table) ← resolveAll scope table rest
    return (function :: rest, table)

end Heading

def Program.resolve (program : Program.Parsed) :
    Except Diagnostic (Program.Scoped × SymbolTable) := do
  let (headings, scope, table) ← Definition.declareAll [] {} program.functions
  let (functions, table) ← Heading.resolveAll scope table headings
  return (⟨functions⟩, table)

end Cinder
