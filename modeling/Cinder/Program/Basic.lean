import Cinder.Float.Format
import Cinder.Operator
import Cinder.Symbol
import Cinder.Text.Source

/-!
# Programs

The tree of a program.  `σ` is what an occurrence of a name is bound to and `τ`
what an expression is typed with: nothing after parsing, then the symbol of the
declaration, then also the type.
-/

namespace Cinder

structure Ident where
  name : String
  span : Span
deriving DecidableEq, Repr

structure TypeRef where
  ty : Ty
  span : Span
deriving DecidableEq, Repr

/-- Literal values.  Integers have no sign and fit 64 bits. -/
inductive Literal where
  | integer (value : Nat)
  | float (bits : FloatBits .w64)
  | boolean (value : Bool)
deriving DecidableEq, Repr

inductive Expr (σ τ : Type) where
  | literal (span : Span) (ty : τ) (value : Literal)
  | ident (span : Span) (ty : τ) (name : Ident) (symbol : σ)
  | call (span : Span) (ty : τ) (callee : Ident) (symbol : σ) (arguments : List (Expr σ τ))
  | binary (span : Span) (ty : τ) (op : Operator) (opSpan : Span) (lhs rhs : Expr σ τ)
  | negate (span : Span) (ty : τ) (operand : Expr σ τ)
  | cast (span : Span) (ty : τ) (operand : Expr σ τ) (target : TypeRef)
deriving Repr

namespace Expr

variable {σ τ : Type}

def span : Expr σ τ → Span
  | .literal span .. => span
  | .ident span .. => span
  | .call span .. => span
  | .binary span .. => span
  | .negate span .. => span
  | .cast span .. => span

def ty : Expr σ τ → τ
  | .literal _ ty _ => ty
  | .ident _ ty _ _ => ty
  | .call _ ty _ _ _ => ty
  | .binary _ ty _ _ _ _ => ty
  | .negate _ ty _ => ty
  | .cast _ ty _ _ => ty

def withSpan (span : Span) : Expr σ τ → Expr σ τ
  | .literal _ ty value => .literal span ty value
  | .ident _ ty name symbol => .ident span ty name symbol
  | .call _ ty callee symbol arguments => .call span ty callee symbol arguments
  | .binary _ ty op opSpan lhs rhs => .binary span ty op opSpan lhs rhs
  | .negate _ ty operand => .negate span ty operand
  | .cast _ ty operand target => .cast span ty operand target

end Expr

structure Local (σ τ : Type) where
  span : Span
  name : Ident
  ty : Option TypeRef
  initializer : Option (Expr σ τ)
  symbol : σ
deriving Repr

mutual

inductive Statement (σ τ : Type) where
  | declare (decl : Local σ τ)
  | assign (span : Span) (target : Ident) (symbol : σ) (value : Expr σ τ)
  | ret (span : Span) (value : Option (Expr σ τ))
  | ifThen (span : Span) (condition : Expr σ τ) (positive : Block σ τ)
  | ifElse (span : Span) (condition : Expr σ τ) (positive negative : Block σ τ)
  | expr (span : Span) (value : Expr σ τ)

inductive Block (σ τ : Type) where
  | mk (span : Span) (statements : List (Statement σ τ))

end

namespace Block

variable {σ τ : Type}

def span : Block σ τ → Span
  | .mk span _ => span

def statements : Block σ τ → List (Statement σ τ)
  | .mk _ statements => statements

end Block

namespace Statement

variable {σ τ : Type}

def span : Statement σ τ → Span
  | .declare decl => decl.span
  | .assign span .. => span
  | .ret span _ => span
  | .ifThen span .. => span
  | .ifElse span .. => span
  | .expr span _ => span

end Statement

structure Parameter (σ : Type) where
  span : Span
  name : Ident
  ty : TypeRef
  symbol : σ
deriving DecidableEq, Repr

structure Definition (σ τ : Type) where
  span : Span
  name : Ident
  parameters : List (Parameter σ)
  returnType : Option TypeRef
  body : Block σ τ
  symbol : σ

structure Program (σ τ : Type) where
  functions : List (Definition σ τ)

abbrev Program.Parsed := Program Unit Unit

abbrev Program.Scoped := Program SymbolId Unit

/-- A program in which expressions carry their types.  A call of a function that
returns nothing has none. -/
abbrev Program.Typed := Program SymbolId (Option Ty)

end Cinder
