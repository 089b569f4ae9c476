import Cinder.Operator
import Cinder.Text.Source
import Cinder.Ty

/-!
# Diagnostics

What can be wrong with a program text, and how each problem is worded.
-/

namespace Cinder

inductive Complaint where
  -- layout and spelling
  | inconsistentIndentation
  | missingTypeName
  | strayCharacter (c : Char)
  -- grammar
  | unexpected (expected found : String)
  | unknownType (text : String)
  | missingBlock
  | bareVariable (name : String)
  | integerTooLarge
  -- names
  | duplicateFunction (name : String)
  | duplicateParameter (name : String)
  | unknownFunction (name : String)
  | calledVariable (name : String)
  | unknownVariable (name : String)
  | functionAsVariable (name : String)
  -- types
  | missingReturn (name : String) (ty : Ty)
  | unexpectedReturnValue
  | missingReturnValue (ty : Ty)
  | voidCall (name : String)
  | operandMismatch (lhs rhs : Ty) (op : Operator)
  | booleanOperand (op : Operator)
  | booleanNegation
  | argumentCount (name : String) (expected supplied : Nat)
  | unsupportedConversion (source target : Ty)
  | literalRange (value : Int) (ty : Ty)
  -- entry point
  | missingMain
  | mainParameters
deriving DecidableEq, Repr

namespace Complaint

def message : Complaint → String
  | inconsistentIndentation => "unindent does not match any outer indentation level"
  | missingTypeName => "expected a type name after `@`"
  | strayCharacter c => s!"unexpected character `{c}`"
  | unexpected expected found => s!"expected {expected} but found {found}"
  | unknownType text => s!"unknown type `{text}`"
  | missingBlock => "expected an indented block"
  | bareVariable name => s!"variable `{name}` needs a type or an initializer"
  | integerTooLarge => "integer literal is too large"
  | duplicateFunction name => s!"function `{name}` is defined more than once"
  | duplicateParameter name => s!"parameter `{name}` is declared more than once"
  | unknownFunction name => s!"cannot find function `{name}`"
  | calledVariable name => s!"`{name}` is a variable, not a function"
  | unknownVariable name => s!"cannot find variable `{name}` in this scope"
  | functionAsVariable name => s!"`{name}` is a function, not a variable"
  | missingReturn name ty =>
    s!"function `{name}` can reach its end without returning a value of type {ty.display}"
  | unexpectedReturnValue => "cannot return a value from a function without a return type"
  | missingReturnValue ty => s!"expected a return value of type {ty.display}"
  | voidCall name => s!"function `{name}` does not return a value"
  | operandMismatch lhs rhs op =>
    s!"mismatched operand types {lhs.display} and {rhs.display} for `{op.sign}`"
  | booleanOperand op => s!"cannot apply `{op.sign}` to @bool"
  | booleanNegation => "cannot negate a value of type @bool"
  | argumentCount name expected supplied =>
    let arguments := if expected = 1 then "argument" else "arguments"
    let were := if supplied = 1 then "was" else "were"
    s!"function `{name}` takes {expected} {arguments} but {supplied} {were} supplied"
  | unsupportedConversion source target =>
    s!"conversion from {source.display} to {target.display} is not supported"
  | literalRange value ty => s!"literal `{value}` does not fit in {ty.display}"
  | missingMain => "program has no `main` function"
  | mainParameters => "`main` cannot take parameters"

end Complaint

structure Diagnostic where
  complaint : Complaint
  span : Span
deriving DecidableEq, Repr

namespace Diagnostic

def report (diagnostic : Diagnostic) (source : Source) : Option Styled :=
  source.report diagnostic.complaint.message diagnostic.span

end Diagnostic

end Cinder
