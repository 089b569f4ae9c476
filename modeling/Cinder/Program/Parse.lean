import Cinder.Float.Arithmetic
import Cinder.Program.Basic
import Cinder.Token.Layout

/-!
# Parsing

Recursive descent over the tokens.  Nested expressions and blocks are bounded by
the number of tokens, since every level takes at least one of them; the parsers
of one level get the parser of the next level as an argument.
-/

namespace Cinder.Parse

abbrev Parser := StateT (List Token) (Except Diagnostic)

abbrev Tree := Expr Unit Unit
abbrev Step := Statement Unit Unit

def nothing : Token :=
  ⟨.endOfFile, "", ⟨0, 0⟩⟩

def peek : Parser Token := do
  return (← get).headD nothing

def peekSecond : Parser Token := do
  return ((← get).drop 1).headD nothing

def fail {α : Type} (complaint : Complaint) (span : Span) : Parser α :=
  throw ⟨complaint, span⟩

def unexpected {α : Type} (token : Token) (expected : String) : Parser α :=
  fail (.unexpected expected token.describe) token.span

def advance : Parser Unit :=
  modify List.tail

def expect (kind : TokenKind) (expected : String) : Parser Token := do
  let token ← peek
  if token.kind = kind then
    advance
    return token
  else unexpected token expected

def keyword (keyword : Keyword) : Parser Token :=
  expect (.keyword keyword) s!"`{keyword.text}`"

def identifier : Parser Ident := do
  let token ← expect .identifier "identifier"
  return ⟨token.text, token.span⟩

def typeRef : Parser TypeRef := do
  let token ← expect .type "type"
  match Ty.ofName? (String.ofList token.text.toList.tail) with
  | some ty => return ⟨ty, token.span⟩
  | none => fail (.unknownType token.text) token.span

def typeRef? : Parser (Option TypeRef) := do
  if (← peek).kind = .type then return some (← typeRef) else return none

/-- One or more items with commas between them; at most `n + 1` are read. -/
def commaSeparated {α : Type} (item : Parser α) : Nat → Parser (List α)
  | 0 => do return [← item]
  | n + 1 => do
    let first ← item
    if (← peek).kind = .comma then
      advance
      return first :: (← commaSeparated item n)
    else return [first]

/-- A list in parentheses behind the opening one; gives its items and the closing
parenthesis. -/
def parenthesized {α : Type} (item : Parser α) : Parser (List α × Token) := do
  let items ← if (← peek).kind = .closeParen then pure []
    else commaSeparated item (← get).length
  let close ← expect .closeParen "`)` or `,`"
  return (items, close)

/-! ## Literals -/

def digitsValue (digits : List Char) : Nat :=
  digits.foldl (fun n c => 10 * n + (c.toNat - '0'.toNat)) 0

def exponentValue : List Char → Int
  | '-' :: digits => -digitsValue digits
  | '+' :: digits => digitsValue digits
  | digits => digitsValue digits

/-- The value nearest to a decimal fraction with an optional exponent. -/
def floatValue (text : List Char) : FloatBits .w64 :=
  let isMantissa (c : Char) : Bool := c.isDigit || c = '.'
  let mantissa := text.takeWhile isMantissa
  let exponent := exponentValue ((text.dropWhile isMantissa).tail)
  let fraction := (mantissa.dropWhile Char.isDigit).tail
  FloatBits.ofDecimal .w64 (digitsValue (mantissa.filter Char.isDigit))
    (exponent - fraction.length)

def literal (token : Token) : Parser Literal :=
  match token.kind with
  | .boolean => return .boolean (token.text == "true")
  | .integer =>
    let value := digitsValue token.text.toList
    if value < UInt64.size then return .integer value else fail .integerTooLarge token.span
  | _ => return .float (floatValue token.text.toList)

/-! ## Expressions, tightest first -/

def call (expression : Parser Tree) : Parser Tree := do
  let callee ← identifier
  let _ ← expect .openParen "`(`"
  let (arguments, close) ← parenthesized expression
  return .call (callee.span.through close.span) () callee () arguments

def atom (expression : Parser Tree) : Parser Tree := do
  let token ← peek
  match token.kind with
  | .identifier =>
    if (← peekSecond).kind = .openParen then call expression
    else
      let name ← identifier
      return .ident name.span () name ()
  | .openParen =>
    advance
    let inner ← expression
    let close ← expect .closeParen "`)`"
    return inner.withSpan (token.span.through close.span)
  | .integer | .float | .boolean =>
    advance
    return .literal token.span () (← literal token)
  | _ => unexpected token "expression"

/-- Minus signs bind more tightly than any other operator. -/
def unary (expression : Parser Tree) : List Token → Except Diagnostic (Tree × List Token)
  | [] => atom expression []
  | token :: rest =>
    if token.kind = .minus then do
      let (operand, rest) ← unary expression rest
      return (.negate (token.span.through operand.span) () operand, rest)
    else atom expression (token :: rest)

def casts : Nat → Tree → Parser Tree
  | 0, e => return e
  | n + 1, e => do
    if (← peek).kind = .keyword .cast then
      advance
      let target ← typeRef
      casts n (.cast (e.span.through target.span) () e target)
    else return e

def cast (expression : Parser Tree) : Parser Tree := do
  let e ← unary expression
  casts (← get).length e

def chain (op? : TokenKind → Option Operator) (operand : Parser Tree) : Nat → Tree → Parser Tree
  | 0, e => return e
  | n + 1, e => do
    let token ← peek
    match op? token.kind with
    | none => return e
    | some op =>
      advance
      let rhs ← operand
      chain op? operand n (.binary (e.span.through rhs.span) () op token.span e rhs)

def level (op? : TokenKind → Option Operator) (operand : Parser Tree) : Parser Tree := do
  let e ← operand
  chain op? operand (← get).length e

def factorOp? : TokenKind → Option Operator
  | .star => some .mul
  | .slash => some .div
  | _ => none

def termOp? : TokenKind → Option Operator
  | .plus => some .add
  | .minus => some .sub
  | _ => none

def comparisonOp? : TokenKind → Option Operator
  | .less => some .less
  | .greater => some .greater
  | _ => none

def nested : Nat → Parser Tree
  | 0 => do unexpected (← peek) "expression"
  | n + 1 => level comparisonOp? (level termOp? (level factorOp? (cast (nested n))))

def expression : Parser Tree := do
  nested ((← get).length + 1)

/-! ## Statements -/

def endOfStatement : Parser Unit := do
  let _ ← expect .newline "end of line"

def statements (statement : Parser Step) : Nat → Parser (List Step)
  | 0 => return []
  | n + 1 => do
    match (← peek).kind with
    | .dedent | .endOfFile => return []
    | _ =>
      let first ← statement
      return first :: (← statements statement n)

def block (statement : Parser Step) : Parser (Block Unit Unit) := do
  let newline ← expect .newline "end of line"
  let indent ← peek
  if indent.kind = .indent then
    advance
    let body ← statements statement (← get).length
    let _ ← expect .dedent "end of block"
    let last := (body.getLast?.map Statement.span).getD newline.span
    return .mk (newline.span.through last) body
  else fail .missingBlock indent.span

def declaration : Parser (Local Unit Unit) := do
  let start ← keyword .var
  let name ← identifier
  let span := start.span.through name.span
  let ty ← typeRef?
  let span := (ty.map fun ty => span.through ty.span).getD span
  let initializer ← if (← peek).kind = .equals then
      advance
      some <$> expression
    else pure none
  let span := (initializer.map fun value => span.through value.span).getD span
  if ty.isNone && initializer.isNone then fail (.bareVariable name.name) span
  else return ⟨span, name, ty, initializer, ()⟩

def returnStatement : Parser Step := do
  let start ← keyword .ret
  let value ← if (← peek).kind = .newline then pure none else some <$> expression
  endOfStatement
  return .ret ((value.map fun value => start.span.through value.span).getD start.span) value

def conditional (statement : Parser Step) : Parser Step := do
  let start ← keyword .when
  let condition ← expression
  let _ ← expect .colon "`:`"
  let positive ← block statement
  let span := start.span.through positive.span
  if (← peek).kind = .keyword .otherwise then
    advance
    let negative ← if (← peek).kind = .keyword .when then
        let inner ← statement
        pure (Block.mk inner.span [inner])
      else
        let _ ← expect .colon "`:` or `if`"
        block statement
    return .ifElse (span.through negative.span) condition positive negative
  else return .ifThen span condition positive

def statementWith (inner : Parser Step) : Parser Step := do
  let token ← peek
  match token.kind with
  | .keyword .var =>
    let decl ← declaration
    endOfStatement
    return .declare decl
  | .keyword .ret => returnStatement
  | .keyword .when => conditional inner
  | _ =>
    if token.kind = .identifier ∧ (← peekSecond).kind = .equals then
      let target ← identifier
      advance
      let value ← expression
      endOfStatement
      return .assign (target.span.through value.span) target () value
    else
      let value ← expression
      endOfStatement
      return .expr value.span value

def statement : Nat → Parser Step
  | 0 => do unexpected (← peek) "expression"
  | n + 1 => statementWith (statement n)

/-! ## Functions -/

def parameter : Parser (Parameter Unit) := do
  let name ← identifier
  let ty ← typeRef
  return ⟨name.span.through ty.span, name, ty, ()⟩

def definition : Parser (Definition Unit Unit) := do
  let start ← keyword .fn
  let name ← identifier
  let _ ← expect .openParen "`(`"
  let (parameters, _) ← parenthesized parameter
  let returnType ← typeRef?
  let _ ← expect .colon "`:`"
  let body ← block (statement ((← get).length + 1))
  return ⟨start.span.through body.span, name, parameters, returnType, body, ()⟩

def skipNewlines : Parser Unit :=
  modify (List.dropWhile fun token => token.kind == .newline)

def definitions : Nat → Parser (List (Definition Unit Unit))
  | 0 => return []
  | n + 1 => do
    skipNewlines
    if (← peek).kind = .endOfFile then return []
    else
      let first ← definition
      return first :: (← definitions n)

end Parse

def Program.parse (text : String) : Except Diagnostic Program.Parsed := do
  let tokens ← tokenize text
  let (functions, _) ← (Parse.definitions (tokens.length + 1)).run tokens
  return ⟨functions⟩

end Cinder
