import Cinder.Program.Scope
import Cinder.Proofs.Except
import Cinder.Proofs.SymbolTable
import Mathlib.Algebra.GroupWithZero.Nat

/-!
# Scoping

What the names of a program denote is told by handing an environment down its tree, which
tells functions from variables and, where names have been bound, tells their symbols as well.

In a program whose names have been bound, every occurrence of a name carries the
symbol of the declaration that is visible there, and every declaration has a symbol
of its own: symbols are numbered in the order of the text, those of headings
before those of local variables.
-/

namespace Cinder

abbrev Environment (σ : Type) := String → Option (Referent σ)

namespace Environment

variable {σ : Type}

/-- The environment with one more declaration, which hides others of its name. -/
def declare (env : Environment σ) (name : String) (d : Referent σ) : Environment σ :=
  fun n => if n = name then some d else env n

def declareParameters (env : Environment σ) (parameters : List (Parameter σ)) : Environment σ :=
  parameters.foldl (fun env p => env.declare p.name.name (.var p.symbol)) env

end Environment

section

variable {σ τ : Type}

/-! ## Scoped programs -/

mutual

/-- The names of an expression denote the declarations that it carries the symbols of. -/
def Expr.Scoped (env : Environment σ) : Expr σ τ → Prop
  | .literal .. => True
  | .ident _ _ name symbol => env name.name = some (.var symbol)
  | .call _ _ callee symbol arguments =>
    env callee.name = some (.function symbol) ∧ Expr.ScopedAll env arguments
  | .binary _ _ _ _ lhs rhs => lhs.Scoped env ∧ rhs.Scoped env
  | .negate _ _ operand => operand.Scoped env
  | .cast _ _ operand _ => operand.Scoped env

def Expr.ScopedAll (env : Environment σ) : List (Expr σ τ) → Prop
  | [] => True
  | expr :: rest => expr.Scoped env ∧ Expr.ScopedAll env rest

end

def Statement.environmentAfter (env : Environment σ) : Statement σ τ → Environment σ
  | .declare decl => env.declare decl.name.name (.var decl.symbol)
  | _ => env

mutual

/-- The names of a statement denote the declarations that it carries the symbols of.  A
variable is not in sight in its own initializer. -/
def Statement.Scoped (env : Environment σ) : Statement σ τ → Prop
  | .declare decl => ∀ e ∈ decl.initializer, e.Scoped env
  | .assign _ target symbol value => value.Scoped env ∧ env target.name = some (.var symbol)
  | .ret _ value => ∀ e ∈ value, e.Scoped env
  | .ifThen _ condition positive => condition.Scoped env ∧ positive.Scoped env
  | .ifElse _ condition positive negative =>
    condition.Scoped env ∧ positive.Scoped env ∧ negative.Scoped env
  | .expr _ value => value.Scoped env

def Block.Scoped (env : Environment σ) : Block σ τ → Prop
  | .mk _ statements => Statement.ScopedAll env statements

def Statement.ScopedAll (env : Environment σ) : List (Statement σ τ) → Prop
  | [] => True
  | statement :: rest =>
    statement.Scoped env ∧ Statement.ScopedAll (statement.environmentAfter env) rest

end

namespace Program

def environment (program : Program σ τ) : Environment σ := fun name =>
  (program.functions.find? fun d => d.name.name = name).map fun d => .function d.symbol

/-- Functions have different names, so have the parameters of each function, and the
names in the bodies denote the declarations that they carry the symbols of. -/
structure Lexical (program : Program σ τ) : Prop where
  functions : (program.functions.map (·.name.name)).Nodup
  parameters : ∀ d ∈ program.functions, (d.parameters.map (·.name.name)).Nodup
  bodies : ∀ d ∈ program.functions,
    d.body.Scoped (program.environment.declareParameters d.parameters)

end Program

/-! ## Programs without symbols -/

mutual

def Expr.erase : Expr σ τ → Expr Unit τ
  | .literal span ty value => .literal span ty value
  | .ident span ty name _ => .ident span ty name ()
  | .call span ty callee _ arguments => .call span ty callee () (Expr.eraseAll arguments)
  | .binary span ty op opSpan lhs rhs => .binary span ty op opSpan lhs.erase rhs.erase
  | .negate span ty operand => .negate span ty operand.erase
  | .cast span ty operand target => .cast span ty operand.erase target

def Expr.eraseAll : List (Expr σ τ) → List (Expr Unit τ)
  | [] => []
  | expr :: rest => expr.erase :: Expr.eraseAll rest

end

mutual

def Statement.erase : Statement σ τ → Statement Unit τ
  | .declare decl => .declare ⟨decl.span, decl.name, decl.ty, decl.initializer.map Expr.erase, ()⟩
  | .assign span target _ value => .assign span target () value.erase
  | .ret span value => .ret span (value.map Expr.erase)
  | .ifThen span condition positive => .ifThen span condition.erase positive.erase
  | .ifElse span condition positive negative =>
    .ifElse span condition.erase positive.erase negative.erase
  | .expr span value => .expr span value.erase

def Block.erase : Block σ τ → Block Unit τ
  | .mk span statements => .mk span (Statement.eraseAll statements)

def Statement.eraseAll : List (Statement σ τ) → List (Statement Unit τ)
  | [] => []
  | statement :: rest => statement.erase :: Statement.eraseAll rest

end

def Parameter.erase (p : Parameter σ) : Parameter Unit :=
  ⟨p.span, p.name, p.ty, ()⟩

def Definition.erase (d : Definition σ τ) : Definition Unit τ :=
  ⟨d.span, d.name, d.parameters.map Parameter.erase, d.returnType, d.body.erase, ()⟩

def Program.erase (program : Program σ τ) : Program Unit τ :=
  ⟨program.functions.map Definition.erase⟩

/-! ## Bound programs -/

abbrev Expr.Bound (scope : Scope) (e : Expr SymbolId τ) : Prop :=
  e.Scoped scope.find?

abbrev Expr.BoundAll (scope : Scope) (es : List (Expr SymbolId τ)) : Prop :=
  Expr.ScopedAll scope.find? es

mutual

def Statement.declarations : Statement σ τ → Nat
  | .declare _ => 1
  | .ifThen _ _ positive => positive.declarations
  | .ifElse _ _ positive negative => positive.declarations + negative.declarations
  | _ => 0

def Block.declarations : Block σ τ → Nat
  | .mk _ statements => Statement.declarationsAll statements

def Statement.declarationsAll : List (Statement σ τ) → Nat
  | [] => 0
  | statement :: rest => statement.declarations + Statement.declarationsAll rest

end

def Program.declarations (program : Program σ τ) : Nat :=
  (program.functions.map fun d => 1 + d.parameters.length).sum +
    (program.functions.map fun d => d.body.declarations).sum

def Scope.declareParameters (scope : Scope) (parameters : List (Parameter SymbolId)) : Scope :=
  parameters.foldl (fun scope p => scope.declare p.name.name (.var p.symbol)) scope

def Statement.scopeAfter (scope : Scope) : Statement SymbolId τ → Scope
  | .declare decl => scope.declare decl.name.name (.var decl.symbol)
  | _ => scope

mutual

/-- The names of a statement stand for what they are bound to, and its declarations
are numbered from `next` on. -/
def Statement.Bound (scope : Scope) (next : Nat) : Statement SymbolId τ → Prop
  | .declare decl => (∀ e ∈ decl.initializer, e.Bound scope) ∧ decl.symbol = next
  | .assign _ target symbol value =>
    value.Bound scope ∧ scope.find? target.name = some (.var symbol)
  | .ret _ value => ∀ e ∈ value, e.Bound scope
  | .ifThen _ condition positive => condition.Bound scope ∧ positive.Bound scope next
  | .ifElse _ condition positive negative =>
    condition.Bound scope ∧ positive.Bound scope next ∧
      negative.Bound scope (next + positive.declarations)
  | .expr _ value => value.Bound scope

def Block.Bound (scope : Scope) (next : Nat) : Block SymbolId τ → Prop
  | .mk _ statements => Statement.BoundAll scope next statements

def Statement.BoundAll (scope : Scope) (next : Nat) : List (Statement SymbolId τ) → Prop
  | [] => True
  | statement :: rest =>
    statement.Bound scope next ∧
      Statement.BoundAll (statement.scopeAfter scope) (next + statement.declarations) rest

end

end

/-! ## Scopes and environments -/

theorem Scope.find?_declare (scope : Scope) (name : String) (referent : Referent SymbolId)
    (n : String) :
    (scope.declare name referent).find? n = if n = name then some referent else scope.find? n := by
  simp only [find?, declare, List.lookup_cons]
  by_cases hn : n = name
  · simp [hn]
  · simp [hn, beq_eq_false_iff_ne.2 hn]

theorem Statement.find?_scopeAfter {τ : Type} (scope : Scope) (statement : Statement SymbolId τ) :
    (statement.scopeAfter scope).find? = statement.environmentAfter scope.find? := by
  cases statement with
  | declare decl => exact funext (scope.find?_declare _ _)
  | _ => rfl

mutual

theorem Statement.Bound.denotes {τ : Type} {scope : Scope} {next : Nat} :
    ∀ {s : Statement SymbolId τ}, s.Bound scope next → s.Scoped scope.find?
  | .declare _, h => h.1
  | .assign .., h => h
  | .ret .., h => h
  | .ifThen .., h => ⟨h.1, Block.Bound.denotes h.2⟩
  | .ifElse .., h => ⟨h.1, Block.Bound.denotes h.2.1, Block.Bound.denotes h.2.2⟩
  | .expr .., h => h

theorem Block.Bound.denotes {τ : Type} {scope : Scope} {next : Nat} :
    ∀ {b : Block SymbolId τ}, b.Bound scope next → b.Scoped scope.find?
  | .mk .., h => Statement.BoundAll.denotes h

theorem Statement.BoundAll.denotes {τ : Type} {scope : Scope} {next : Nat} :
    ∀ {ss : List (Statement SymbolId τ)},
      Statement.BoundAll scope next ss → Statement.ScopedAll scope.find? ss
  | [], _ => trivial
  | s :: _, h => by
    have hrest := Statement.BoundAll.denotes h.2
    rw [Statement.find?_scopeAfter] at hrest
    exact ⟨Statement.Bound.denotes h.1, hrest⟩

end

theorem SymbolTable.referentOf_var {table : SymbolTable} {id : SymbolId} {name : String}
    {ty : Option Ty} {origin : Origin} (h : table.get? id = some ⟨name, .var ty origin⟩) :
    table.referentOf id = .var id := by
  rw [referentOf, h]

theorem SymbolTable.referentOf_function {table : SymbolTable} {id : SymbolId} {name : String}
    {parameters : List SymbolId} {ty : Option Ty}
    (h : table.get? id = some ⟨name, .function parameters ty⟩) :
    table.referentOf id = .function id := by
  rw [referentOf, h]

namespace Scope

theorem enter_eq {scope : Scope} {table : SymbolTable} {parameters : List (Parameter SymbolId)}
    (h : ∀ p ∈ parameters, table.get? p.symbol = some ⟨p.name.name, .var none .parameter⟩) :
    scope.enter table parameters = scope.declareParameters parameters := by
  induction parameters generalizing scope with
  | nil => rfl
  | cons p rest ih =>
    rw [List.forall_mem_cons] at h
    rw [enter, List.foldl_cons, SymbolTable.referentOf_var h.1]
    exact ih h.2

end Scope

/-! ## Headings -/

structure Signature where
  name : String
  symbol : SymbolId
  parameters : List (Parameter SymbolId)

def Definition.signature {τ : Type} (definition : Definition SymbolId τ) : Signature :=
  ⟨definition.name.name, definition.symbol, definition.parameters⟩

def Heading.signature (heading : Heading) : Signature :=
  ⟨heading.source.name.name, heading.symbol, heading.parameters⟩

namespace Signature

def count : List Signature → Nat
  | [] => 0
  | signature :: rest => 1 + signature.parameters.length + count rest

/-- The symbols of headings are numbered from `next` on, each function before its
parameters. -/
def Numbered (next : Nat) : List Signature → Prop
  | [] => True
  | signature :: rest =>
    signature.symbol = next ∧
      signature.parameters.map (·.symbol) = List.range' (next + 1) signature.parameters.length ∧
      Numbered (next + 1 + signature.parameters.length) rest

def scope (signatures : List Signature) : Scope :=
  (signatures.map fun signature => (signature.name, .function signature.symbol)).reverse

/-- The table knows a function and its parameters, without types yet. -/
def DeclaredIn (table : SymbolTable) (signature : Signature) : Prop :=
  table.get? signature.symbol =
      some ⟨signature.name, .function (signature.parameters.map (·.symbol)) none⟩ ∧
    ∀ p ∈ signature.parameters, table.get? p.symbol = some ⟨p.name.name, .var none .parameter⟩

theorem DeclaredIn.keep {table table' : SymbolTable} {s : Signature}
    (h : s.DeclaredIn table)
    (hkeep : ∀ {id}, id < table.size → table'.get? id = table.get? id) : s.DeclaredIn table' := by
  refine ⟨?_, fun p hp => ?_⟩
  · rw [hkeep (SymbolTable.lt_size_of_get? h.1)]
    exact h.1
  · rw [hkeep (SymbolTable.lt_size_of_get? (h.2 p hp))]
    exact h.2 p hp

end Signature

namespace Definition

/-- The bodies of functions are bound and their variables numbered one after the
other. -/
def BoundAll {τ : Type} (scope : Scope) (next : Nat) : List (Definition SymbolId τ) → Prop
  | [] => True
  | definition :: rest =>
    definition.body.Bound (scope.declareParameters definition.parameters) next ∧
      BoundAll scope (next + definition.body.declarations) rest

def declarationsAll {τ : Type} : List (Definition SymbolId τ) → Nat
  | [] => 0
  | definition :: rest => definition.body.declarations + declarationsAll rest

end Definition

namespace Program

variable {τ : Type}

def signatures (program : Program SymbolId τ) : List Signature :=
  program.functions.map Definition.signature

/-- Every name of the program stands for the declaration it is bound to, and every
declaration has a symbol of its own. -/
structure Bound (program : Program SymbolId τ) : Prop where
  names : (program.signatures.map (·.name)).Nodup
  parameterNames : ∀ s ∈ program.signatures, (s.parameters.map (·.name.name)).Nodup
  numbered : Signature.Numbered 0 program.signatures
  bodies : Definition.BoundAll (Signature.scope program.signatures)
    (Signature.count program.signatures) program.functions

/-- The table holds the headings of a program and its local variables, without
types yet. -/
structure DeclaredIn (program : Program SymbolId τ) (table : SymbolTable) : Prop where
  size : table.size =
    Signature.count program.signatures + Definition.declarationsAll program.functions
  headings : ∀ s ∈ program.signatures, s.DeclaredIn table
  locals : ∀ {id}, Signature.count program.signatures ≤ id → id < table.size →
    ∃ name, table.get? id = some ⟨name, .var none .user⟩

end Program

end Cinder
