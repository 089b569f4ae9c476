import Cinder.Failure
import Cinder.Program.Scope
import Std.Data.ExtTreeMap

/-!
# Binding names

Binds every occurrence of a name to the symbol of its declaration, with a stack of
scopes that blocks open and close on the way through the program.  Functions are kept
apart and are entered before any body is read.  Whether a name stands for a function or
a variable is read from the symbol table.
-/

namespace Cinder

/-- The functions of a program, and the scopes that are open, innermost first. -/
structure ScopeStack where
  globals : Std.ExtTreeMap String SymbolId := ∅
  shallow : List (Std.ExtTreeMap String SymbolId) := []

namespace ScopeStack

def push (scopes : ScopeStack) : ScopeStack :=
  { scopes with shallow := ∅ :: scopes.shallow }

def pop (scopes : ScopeStack) : Except Fault ScopeStack :=
  match scopes.shallow with
  | [] => .error .unopenedScope
  | _ :: outer => .ok { scopes with shallow := outer }

/-- Binds a name in the innermost scope, where it replaces an earlier binding. -/
def bind (scopes : ScopeStack) (name : String) (symbol : SymbolId) : Except Fault ScopeStack :=
  match scopes.shallow with
  | [] => .error .bindingOutsideScopes
  | scope :: outer => .ok { scopes with shallow := scope.insert name symbol :: outer }

def bindGlobal (scopes : ScopeStack) (name : String) (symbol : SymbolId) : ScopeStack :=
  { scopes with globals := scopes.globals.insert name symbol }

/-- The binding of a name from the innermost scope outwards, functions last. -/
def find? (scopes : ScopeStack) (name : String) : Option SymbolId :=
  (scopes.shallow.findSome? fun scope => scope[name]?).or scopes.globals[name]?

end ScopeStack

structure Binder where
  scopes : ScopeStack := {}
  symbols : SymbolTable := {}

abbrev Binding := EStateM Failure Binder

namespace Binder

def variableOf (binder : Binder) (name : Ident) : Except Failure SymbolId :=
  match binder.scopes.find? name.name with
  | none => reject (.unknownVariable name.name) name.span
  | some symbol => do
    match (← binder.symbols.get symbol).kind with
    | .function .. => reject (.functionAsVariable name.name) name.span
    | .var .. => return symbol

def functionOf (binder : Binder) (name : Ident) : Except Failure SymbolId :=
  match binder.scopes.find? name.name with
  | none => reject (.unknownFunction name.name) name.span
  | some symbol => do
    match (← binder.symbols.get symbol).kind with
    | .function .. => return symbol
    | .var .. => reject (.calledVariable name.name) name.span

def read {α : Type} (look : Binder → Except Failure α) : Binding α := fun binder =>
  match look binder with
  | .ok a => .ok a binder
  | .error failure => .error failure binder

def changeScopes (change : ScopeStack → Except Fault ScopeStack) : Binding Unit := fun binder =>
  match change binder.scopes with
  | .ok scopes => .ok () { binder with scopes }
  | .error fault => .error (.broken fault) binder

/-- Runs an action in a scope of its own, which is closed whether it fails or not. -/
def inScope {α : Type} (action : Binding α) : Binding α := do
  changeScopes fun scopes => .ok scopes.push
  try action finally changeScopes ScopeStack.pop

def declare (name : String) : Binding SymbolId := do
  let binder ← get
  let symbol := binder.symbols.next
  set { binder with symbols := binder.symbols.declareVariable name none .user }
  changeScopes fun scopes => scopes.bind name symbol
  return symbol

end Binder

namespace Expr

mutual

def bindNames (binder : Binder) : Expr Unit Unit → Except Failure (Expr SymbolId Unit)
  | .literal span ty value => .ok (.literal span ty value)
  | .ident span ty name _ => do
    return .ident span ty name (← binder.variableOf name)
  | .call span ty callee _ arguments => do
    let symbol ← binder.functionOf callee
    return .call span ty callee symbol (← bindAll binder arguments)
  | .binary span ty op opSpan lhs rhs => do
    let lhs ← lhs.bindNames binder
    return .binary span ty op opSpan lhs (← rhs.bindNames binder)
  | .negate span ty operand => do
    return .negate span ty (← operand.bindNames binder)
  | .cast span ty operand target => do
    return .cast span ty (← operand.bindNames binder) target

def bindAll (binder : Binder) :
    List (Expr Unit Unit) → Except Failure (List (Expr SymbolId Unit))
  | [] => .ok []
  | expr :: rest => do
    let expr ← expr.bindNames binder
    return expr :: (← bindAll binder rest)

end

def bindNames? (binder : Binder) :
    Option (Expr Unit Unit) → Except Failure (Option (Expr SymbolId Unit))
  | none => .ok none
  | some expr => return some (← expr.bindNames binder)

end Expr

mutual

def Statement.bindNames : Statement Unit Unit → Binding (Statement SymbolId Unit)
  | .declare decl => do
    let initializer ← Binder.read (Expr.bindNames? · decl.initializer)
    return .declare ⟨decl.span, decl.name, decl.ty, initializer, ← Binder.declare decl.name.name⟩
  | .assign span target _ value => do
    let value ← Binder.read (value.bindNames ·)
    return .assign span target (← Binder.read (·.variableOf target)) value
  | .ret span value => do
    return .ret span (← Binder.read (Expr.bindNames? · value))
  | .ifThen span condition positive => do
    let condition ← Binder.read (condition.bindNames ·)
    return .ifThen span condition (← positive.bindNames)
  | .ifElse span condition positive negative => do
    let condition ← Binder.read (condition.bindNames ·)
    let positive ← positive.bindNames
    return .ifElse span condition positive (← negative.bindNames)
  | .expr span value => do
    return .expr span (← Binder.read (value.bindNames ·))

def Block.bindNames : Block Unit Unit → Binding (Block SymbolId Unit)
  | .mk span statements => do
    return .mk span (← Binder.inScope (Statement.bindAll statements))

def Statement.bindAll : List (Statement Unit Unit) → Binding (List (Statement SymbolId Unit))
  | [] => return []
  | statement :: rest => do
    let statement ← statement.bindNames
    return statement :: (← Statement.bindAll rest)

end

def Definition.bindHeading (function : Definition Unit Unit) : Binding Heading := do
  let binder ← get
  if binder.scopes.globals.contains function.name.name then
    throw (.rejected ⟨.duplicateFunction function.name.name, function.name.span⟩)
  if let some parameter := Parameter.repeated? [] function.parameters then
    throw (.rejected ⟨.duplicateParameter parameter.name.name, parameter.name.span⟩)
  let (heading, symbols) := function.enter binder.symbols
  set (⟨binder.scopes.bindGlobal function.name.name heading.symbol, symbols⟩ : Binder)
  return heading

def Parameter.bindAll (parameters : List (Parameter SymbolId)) : Binding Unit :=
  parameters.forM fun p => Binder.changeScopes fun scopes => scopes.bind p.name.name p.symbol

namespace Heading

def bindBody (heading : Heading) : Binding (Definition SymbolId Unit) := do
  Parameter.bindAll heading.parameters
  let source := heading.source
  return ⟨source.span, source.name, heading.parameters, source.returnType,
    ← source.body.bindNames, heading.symbol⟩

/-- Binds the names in a function.  Parameters have a scope of their own around the one of the
body. -/
def bindNames (heading : Heading) : Binding (Definition SymbolId Unit) :=
  Binder.inScope heading.bindBody

end Heading

namespace Program

def bindFunctions (program : Program.Parsed) : Binding Program.Scoped := do
  let headings ← program.functions.mapM Definition.bindHeading
  return ⟨← headings.mapM Heading.bindNames⟩

def bindNames (program : Program.Parsed) : Except Failure (Program.Scoped × SymbolTable) :=
  match program.bindFunctions {} with
  | .ok program binder => .ok (program, binder.symbols)
  | .error failure _ => .error failure

end Program

end Cinder
