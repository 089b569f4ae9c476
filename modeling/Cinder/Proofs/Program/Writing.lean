import Cinder.Program.Parse
import Cinder.Proofs.Token.Pages

/-!
# Programs as texts

How a program is written: a statement is a line, a block is four blanks further in than what it
belongs to, and an expression has parentheses only where it would be read differently without
them.  Operators stand on the rungs of a ladder: comparisons on the lowest one, then sums,
products, casts and minus signs.  Operators of one rung are read from left to right, so an
operand on their left may stand on the same rung and one on their right has to stand higher.

A written program is read as the tokens that the grammar has for it.
-/

namespace Cinder

open Layout (Line)

variable {σ τ : Type}

/-! ## Expressions -/

namespace Operator

/-- Rung of an operator; the rungs above it are 3 for casts and 4 for minus signs. -/
def rung : Operator → Nat
  | greater | less => 0
  | add | sub => 1
  | mul | div => 2

def kind : Operator → TokenKind
  | add => .plus
  | sub => .minus
  | mul => .star
  | div => .slash
  | greater => .greater
  | less => .less

end Operator

def Literal.text : Literal → String
  | .integer value => toString value
  | .boolean value => if value then "true" else "false"
  | .float _ => ""

def Literal.lexeme : Literal → Lexeme
  | .integer value => ⟨.integer, toString value⟩
  | .boolean value => ⟨.boolean, if value then "true" else "false"⟩
  | .float _ => ⟨.float, ""⟩

def enclosedIf (needed : Bool) (text : String) : String :=
  if needed then "(" ++ text ++ ")" else text

def Lexeme.enclosedIf (needed : Bool) (lexemes : List Lexeme) : List Lexeme :=
  if needed then ⟨.openParen, ""⟩ :: lexemes ++ [⟨.closeParen, ""⟩] else lexemes

def listed (texts : List String) : String :=
  "(" ++ ", ".intercalate texts ++ ")"

def Lexeme.listed (lexemes : List (List Lexeme)) : List Lexeme :=
  ⟨.openParen, ""⟩ :: [⟨.comma, ""⟩].intercalate lexemes ++ [⟨.closeParen, ""⟩]

mutual

/-- The text of an expression in a place for expressions of a rung and of higher ones. -/
def Expr.text (rung : Nat) : Expr σ τ → String
  | .literal _ _ value => value.text
  | .ident _ _ name _ => name.name
  | .call _ _ callee _ arguments => callee.name ++ listed (Expr.texts arguments)
  | .binary _ _ op _ lhs rhs =>
    enclosedIf (op.rung < rung)
      (lhs.text op.rung ++ " " ++ op.sign ++ " " ++ rhs.text (op.rung + 1))
  | .negate _ _ operand => "-" ++ operand.text 4
  | .cast _ _ operand target =>
    enclosedIf (3 < rung) (operand.text 3 ++ " " ++ "as" ++ " " ++ target.ty.display)

def Expr.texts : List (Expr σ τ) → List String
  | [] => []
  | expr :: rest => expr.text 0 :: Expr.texts rest

end

mutual

/-- The tokens of an expression in a place for expressions of a rung and of higher ones. -/
def Expr.lexemes (rung : Nat) : Expr σ τ → List Lexeme
  | .literal _ _ value => [value.lexeme]
  | .ident _ _ name _ => [⟨.identifier, name.name⟩]
  | .call _ _ callee _ arguments =>
    ⟨.identifier, callee.name⟩ :: Lexeme.listed (Expr.lexemesAll arguments)
  | .binary _ _ op _ lhs rhs =>
    Lexeme.enclosedIf (op.rung < rung)
      (lhs.lexemes op.rung ++ ⟨op.kind, ""⟩ :: rhs.lexemes (op.rung + 1))
  | .negate _ _ operand => ⟨.minus, ""⟩ :: operand.lexemes 4
  | .cast _ _ operand target =>
    Lexeme.enclosedIf (3 < rung)
      (operand.lexemes 3 ++ [⟨.keyword .cast, ""⟩, ⟨.type, target.ty.display⟩])

def Expr.lexemesAll : List (Expr σ τ) → List (List Lexeme)
  | [] => []
  | expr :: rest => expr.lexemes 0 :: Expr.lexemesAll rest

end

/-! ## Statements -/

def TypeRef.suffix : Option TypeRef → String
  | none => ""
  | some ty => " " ++ ty.ty.display

def TypeRef.lexemes : Option TypeRef → List Lexeme
  | none => []
  | some ty => [⟨.type, ty.ty.display⟩]

def Local.text (decl : Local σ τ) : String :=
  "var" ++ " " ++ decl.name.name ++ TypeRef.suffix decl.ty ++
    match decl.initializer with
    | none => ""
    | some value => " " ++ "=" ++ " " ++ value.text 0

def Local.lexemes (decl : Local σ τ) : List Lexeme :=
  ⟨.keyword .var, ""⟩ :: ⟨.identifier, decl.name.name⟩ :: TypeRef.lexemes decl.ty ++
    match decl.initializer with
    | none => []
    | some value => ⟨.equals, ""⟩ :: value.lexemes 0

def Block.isConditional : Block σ τ → Bool
  | .mk _ [.ifThen ..] => true
  | .mk _ [.ifElse ..] => true
  | _ => false

mutual

/-- The lines of a statement at a depth.  An alternative that is one conditional statement may
be joined to the line of `else`. -/
def Statement.lines (joined : Bool) (depth : Nat) : Statement σ τ → List (Line String)
  | .declare decl => [⟨depth, decl.text⟩]
  | .assign _ target _ value => [⟨depth, target.name ++ " " ++ "=" ++ " " ++ value.text 0⟩]
  | .ret _ none => [⟨depth, "return"⟩]
  | .ret _ (some value) => [⟨depth, "return" ++ " " ++ value.text 0⟩]
  | .ifThen _ condition positive =>
    ⟨depth, "if" ++ " " ++ condition.text 0 ++ ":"⟩ :: positive.lines joined (depth + 1)
  | .ifElse _ condition positive negative =>
    ⟨depth, "if" ++ " " ++ condition.text 0 ++ ":"⟩ :: positive.lines joined (depth + 1) ++
      if joined && negative.isConditional then Line.lead "else" (negative.lines joined depth)
      else ⟨depth, "else" ++ ":"⟩ :: negative.lines joined (depth + 1)
  | .expr _ value => [⟨depth, value.text 0⟩]

def Block.lines (joined : Bool) (depth : Nat) : Block σ τ → List (Line String)
  | .mk _ statements => Statement.linesAll joined depth statements

def Statement.linesAll (joined : Bool) (depth : Nat) : List (Statement σ τ) → List (Line String)
  | [] => []
  | statement :: rest => statement.lines joined depth ++ Statement.linesAll joined depth rest

end

mutual

def Statement.lexemes (joined : Bool) : Statement σ τ → List Lexeme
  | .declare decl => decl.lexemes ++ [⟨.newline, ""⟩]
  | .assign _ target _ value =>
    ⟨.identifier, target.name⟩ :: ⟨.equals, ""⟩ :: value.lexemes 0 ++ [⟨.newline, ""⟩]
  | .ret _ none => [⟨.keyword .ret, ""⟩, ⟨.newline, ""⟩]
  | .ret _ (some value) => ⟨.keyword .ret, ""⟩ :: value.lexemes 0 ++ [⟨.newline, ""⟩]
  | .ifThen _ condition positive =>
    ⟨.keyword .when, ""⟩ :: condition.lexemes 0 ++ [⟨.colon, ""⟩] ++
      (⟨.newline, ""⟩ :: ⟨.indent, ""⟩ :: positive.lexemes joined ++ [⟨.dedent, ""⟩])
  | .ifElse _ condition positive negative =>
    ⟨.keyword .when, ""⟩ :: condition.lexemes 0 ++ [⟨.colon, ""⟩] ++
      (⟨.newline, ""⟩ :: ⟨.indent, ""⟩ :: positive.lexemes joined ++ [⟨.dedent, ""⟩]) ++
      if joined && negative.isConditional then
        ⟨.keyword .otherwise, ""⟩ :: negative.lexemes joined
      else
        ⟨.keyword .otherwise, ""⟩ :: ⟨.colon, ""⟩ ::
          (⟨.newline, ""⟩ :: ⟨.indent, ""⟩ :: negative.lexemes joined ++ [⟨.dedent, ""⟩])
  | .expr _ value => value.lexemes 0 ++ [⟨.newline, ""⟩]

def Block.lexemes (joined : Bool) : Block σ τ → List Lexeme
  | .mk _ statements => Statement.lexemesAll joined statements

def Statement.lexemesAll (joined : Bool) : List (Statement σ τ) → List Lexeme
  | [] => []
  | statement :: rest => statement.lexemes joined ++ Statement.lexemesAll joined rest

end

/-! ## Definitions -/

def Parameter.text (parameter : Parameter σ) : String :=
  parameter.name.name ++ " " ++ parameter.ty.ty.display

def Parameter.lexemes (parameter : Parameter σ) : List Lexeme :=
  [⟨.identifier, parameter.name.name⟩, ⟨.type, parameter.ty.ty.display⟩]

namespace Definition

def heading (function : Definition σ τ) : String :=
  "fun" ++ " " ++ function.name.name ++ listed (function.parameters.map Parameter.text) ++
    TypeRef.suffix function.returnType ++ ":"

def lines (joined : Bool) (function : Definition σ τ) : List (Line String) :=
  ⟨0, function.heading⟩ :: function.body.lines joined 1

def lexemes (joined : Bool) (function : Definition σ τ) : List Lexeme :=
  ⟨.keyword .fn, ""⟩ :: ⟨.identifier, function.name.name⟩ ::
    Lexeme.listed (function.parameters.map Parameter.lexemes) ++
    TypeRef.lexemes function.returnType ++ [⟨.colon, ""⟩] ++
    (⟨.newline, ""⟩ :: ⟨.indent, ""⟩ :: function.body.lexemes joined ++ [⟨.dedent, ""⟩])

end Definition

namespace Program

def lines (joined : Bool) (program : Program σ τ) : List (Line String) :=
  program.functions.flatMap (Definition.lines joined)

def source (joined : Bool) (program : Program σ τ) : String :=
  String.join ((program.lines joined).map Line.source)

def lexemes (joined : Bool) (program : Program σ τ) : List Lexeme :=
  program.functions.flatMap (Definition.lexemes joined)

end Program

/-! ## Programs that can be written -/

/-- A word that names something: it begins with a letter or an underscore, goes on with
letters, digits and underscores, and is no reserved word and no truth value. -/
structure IsName (text : String) : Prop where
  start : text.toList.head?.any Scan.isWordStart = true
  parts : text.toList.all Scan.isWordPart = true
  kind : Scan.wordKind text = .identifier

def Literal.Writable : Literal → Prop
  | .integer value => value < UInt64.size
  | .boolean _ => True
  | .float _ => False

mutual

def Expr.Writable : Expr σ τ → Prop
  | .literal _ _ value => value.Writable
  | .ident _ _ name _ => IsName name.name
  | .call _ _ callee _ arguments => IsName callee.name ∧ Expr.WritableAll arguments
  | .binary _ _ _ _ lhs rhs => lhs.Writable ∧ rhs.Writable
  | .negate _ _ operand => operand.Writable
  | .cast _ _ operand _ => operand.Writable

def Expr.WritableAll : List (Expr σ τ) → Prop
  | [] => True
  | expr :: rest => expr.Writable ∧ Expr.WritableAll rest

end

structure Local.Writable (decl : Local σ τ) : Prop where
  name : IsName decl.name.name
  typed : decl.ty.isSome ∨ decl.initializer.isSome
  initializer : ∀ value ∈ decl.initializer, value.Writable

mutual

def Statement.Writable : Statement σ τ → Prop
  | .declare decl => decl.Writable
  | .assign _ target _ value => IsName target.name ∧ value.Writable
  | .ret _ value => ∀ e ∈ value, e.Writable
  | .ifThen _ condition positive => condition.Writable ∧ positive.Writable
  | .ifElse _ condition positive negative =>
    condition.Writable ∧ positive.Writable ∧ negative.Writable
  | .expr _ value => value.Writable

def Block.Writable : Block σ τ → Prop
  | .mk _ statements => statements ≠ [] ∧ Statement.WritableAll statements

def Statement.WritableAll : List (Statement σ τ) → Prop
  | [] => True
  | statement :: rest => statement.Writable ∧ Statement.WritableAll rest

end

structure Definition.Writable (function : Definition σ τ) : Prop where
  name : IsName function.name.name
  parameters : ∀ parameter ∈ function.parameters, IsName parameter.name.name
  body : function.body.Writable

def Program.Writable (program : Program σ τ) : Prop :=
  ∀ function ∈ program.functions, function.Writable

/-! ## Reading what is written -/

open Scan

variable {text : String} {ls : List Lexeme} {depth : Nat}

theorem IsName.phrase (h : IsName text) : Phrase text [⟨.identifier, text⟩] := by
  apply phrase_word h.start h.parts
  rw [h.kind]
  rfl

theorem Operator.phrase (op : Operator) : Phrase op.sign [⟨op.kind, ""⟩] := by
  cases op with
  | add => exact .mark (c := '+') rfl fun _ => rfl
  | sub => exact .mark (c := '-') rfl fun _ => rfl
  | mul => exact .mark (c := '*') rfl fun _ => rfl
  | div => exact .mark (c := '/') rfl fun _ => rfl
  | greater => exact .mark (c := '>') rfl fun _ => rfl
  | less => exact .mark (c := '<') rfl fun _ => rfl

theorem Literal.Writable.phrase {value : Literal} (h : value.Writable) :
    Phrase value.text [value.lexeme] := by
  cases value with
  | integer value => exact phrase_integer value
  | boolean value => exact phrase_boolean value
  | float value => exact absurd h id

theorem phrase_enclosedIf (needed : Bool) (h : Phrase text ls) :
    Phrase (enclosedIf needed text) (Lexeme.enclosedIf needed ls) := by
  cases needed with
  | false => exact h
  | true => exact h.paren

theorem break_listed (texts : List String) : Break (listed texts).toList := by
  rw [listed, String.append_assoc, String.toList_append]
  exact .mark (c := '(') rfl _

theorem phrase_listed {texts : List String} {lexemes : List (List Lexeme)} (h : Phrase text ls)
    (hlist : List.Forall₂ Phrase texts lexemes) :
    Phrase (text ++ listed texts) (ls ++ Lexeme.listed lexemes) :=
  h.append (phrase_list hlist) (break_listed texts)

namespace Expr

mutual

theorem Writable.phrase : ∀ {e : Expr σ τ}, e.Writable → ∀ rung,
    Phrase (e.text rung) (e.lexemes rung)
  | .literal .., h, _ => Literal.Writable.phrase h
  | .ident .., h, _ => IsName.phrase h
  | .call .., h, _ => phrase_listed h.1.phrase (WritableAll.phrases h.2)
  | .binary _ _ op _ _ _, h, rung => by
    rw [text, lexemes]
    apply phrase_enclosedIf
    have hbinary := ((Writable.phrase h.1 op.rung).spaced op.phrase).spaced
      (Writable.phrase h.2 (op.rung + 1))
    rwa [List.append_assoc, List.singleton_append] at hbinary
  | .negate _ _ operand, h, _ => (Writable.phrase (e := operand) h 4).minus
  | .cast _ _ operand target, h, rung => by
    rw [text, lexemes]
    apply phrase_enclosedIf
    have hcast := ((Writable.phrase (e := operand) h 3).spaced (phrase_keyword .cast)).spaced
      (phrase_type target.ty)
    rwa [List.append_assoc, List.singleton_append] at hcast

theorem WritableAll.phrases : ∀ {es : List (Expr σ τ)}, WritableAll es →
    List.Forall₂ Phrase (texts es) (lexemesAll es)
  | [], _ => .nil
  | _ :: _, h => .cons (Writable.phrase h.1 0) (WritableAll.phrases h.2)

end

end Expr

theorem TypeRef.phrase_suffix (h : Phrase text ls) (ty : Option TypeRef) :
    Phrase (text ++ TypeRef.suffix ty) (ls ++ TypeRef.lexemes ty) := by
  cases ty with
  | none =>
    rw [suffix, lexemes, String.append_empty, List.append_nil]
    exact h
  | some ty =>
    rw [suffix, lexemes, ← String.append_assoc]
    exact h.spaced (phrase_type ty.ty)

theorem phrase_equals : Phrase "=" [⟨.equals, ""⟩] :=
  .mark (c := '=') rfl fun _ => rfl

theorem Local.Writable.phrase {decl : Local σ τ} (h : decl.Writable) :
    Phrase decl.text decl.lexemes := by
  have hname := TypeRef.phrase_suffix ((phrase_keyword .var).spaced h.name.phrase) decl.ty
  unfold Local.text Local.lexemes
  cases hvalue : decl.initializer with
  | none =>
    simp only [String.append_empty, List.append_nil]
    exact hname
  | some value =>
    have hinitializer := (hname.spaced phrase_equals).spaced
      ((h.initializer value hvalue).phrase 0)
    simpa [String.append_assoc, Keyword.text] using hinitializer

/-! ### Blocks -/

open Layout

theorem spells_header {lines : List (Line String)} {ls' : List Lexeme} (h : Phrase text ls)
    (h' : Spells (depth + 1) lines ls') (hne : lines ≠ []) :
    Spells depth (⟨depth, text⟩ :: lines)
      (ls ++ (⟨.newline, ""⟩ :: ⟨.indent, ""⟩ :: ls' ++ [⟨.dedent, ""⟩])) := by
  have := Spells.nest h h' hne
  rwa [List.append_assoc] at this

theorem Statement.lines_ne_nil {joined : Bool} (s : Statement σ τ) :
    s.lines joined depth ≠ [] := by
  cases s with
  | declare => simp [Statement.lines]
  | assign => simp [Statement.lines]
  | ret _ value => cases value <;> simp [Statement.lines]
  | ifThen => simp [Statement.lines]
  | ifElse => simp [Statement.lines]
  | expr => simp [Statement.lines]

theorem Block.lines_ne_nil {joined : Bool} {b : Block σ τ} (h : b.Writable) :
    b.lines joined depth ≠ [] := by
  obtain ⟨span, statements⟩ := b
  cases statements with
  | nil => exact absurd rfl h.1
  | cons s rest =>
    rw [Block.lines, Statement.linesAll]
    exact List.append_ne_nil_of_left_ne_nil (s.lines_ne_nil) _

mutual

theorem Statement.spells (joined : Bool) : ∀ {s : Statement σ τ} (depth : Nat), s.Writable →
    Spells depth (s.lines joined depth) (s.lexemes joined)
  | .declare decl, _, h => .line (Local.Writable.phrase h)
  | .assign .., depth, h => by
    have hassign := (h.1.phrase.spaced phrase_equals).spaced (h.2.phrase 0)
    exact .line (by simpa using hassign)
  | .ret _ none, _, _ => .line (phrase_keyword .ret)
  | .ret _ (some value), _, h => .line ((phrase_keyword .ret).spaced ((h value rfl).phrase 0))
  | .ifThen _ condition positive, depth, h =>
    spells_header ((phrase_keyword .when).spaced (h.1.phrase 0)).colon
      (Block.spells joined (depth + 1) h.2) (Block.lines_ne_nil h.2)
  | .ifElse _ condition positive negative, depth, h => by
    have hpositive := spells_header ((phrase_keyword .when).spaced (h.1.phrase 0)).colon
      (Block.spells joined (depth + 1) h.2.1) (Block.lines_ne_nil h.2.1)
    rw [Statement.lines, Statement.lexemes]
    apply Spells.append hpositive
    split
    · exact .lead (phrase_keyword .otherwise) (Block.spells joined depth h.2.2)
        (Block.lines_ne_nil h.2.2)
    · exact spells_header (phrase_keyword .otherwise).colon
        (Block.spells joined (depth + 1) h.2.2) (Block.lines_ne_nil h.2.2)
  | .expr .., _, h => .line (h.phrase 0)

theorem Block.spells (joined : Bool) : ∀ {b : Block σ τ} (depth : Nat), b.Writable →
    Spells depth (b.lines joined depth) (b.lexemes joined)
  | .mk _ _, depth, h => Statement.spells_all joined depth h.2

theorem Statement.spells_all (joined : Bool) : ∀ {ss : List (Statement σ τ)} (depth : Nat),
    Statement.WritableAll ss →
      Spells depth (Statement.linesAll joined depth ss) (Statement.lexemesAll joined ss)
  | [], _, _ => .nil
  | _ :: _, depth, h =>
    (Statement.spells joined depth h.1).append (Statement.spells_all joined depth h.2)

end

theorem Definition.Writable.phrase_heading {function : Definition σ τ} (h : function.Writable) :
    Phrase function.heading (⟨.keyword .fn, ""⟩ :: ⟨.identifier, function.name.name⟩ ::
      Lexeme.listed (function.parameters.map Parameter.lexemes) ++
      TypeRef.lexemes function.returnType ++ [⟨.colon, ""⟩]) := by
  have hparameters : List.Forall₂ Phrase (function.parameters.map Parameter.text)
      (function.parameters.map Parameter.lexemes) := by
    rw [List.forall₂_map_left_iff, List.forall₂_map_right_iff, List.forall₂_same]
    intro parameter hparameter
    exact (h.parameters parameter hparameter).phrase.spaced (phrase_type parameter.ty.ty)
  exact (TypeRef.phrase_suffix (phrase_listed ((phrase_keyword .fn).spaced h.name.phrase)
    hparameters) function.returnType).colon

theorem Definition.spells (joined : Bool) {function : Definition σ τ} (h : function.Writable) :
    Spells 0 (function.lines joined) (function.lexemes joined) :=
  spells_header h.phrase_heading (Block.spells joined 1 h.body) (Block.lines_ne_nil h.body)

theorem Program.exists_tokenize_source (joined : Bool) {program : Program σ τ}
    (h : program.Writable) :
    ∃ tokens, tokenize (program.source joined) = .ok tokens ∧
      tokens.map Token.lexeme = program.lexemes joined ++ [⟨.endOfFile, ""⟩] := by
  apply exists_tokenize_lines
  obtain ⟨functions⟩ := program
  induction functions with
  | nil => exact .nil
  | cons function functions ih =>
    have h : ∀ f ∈ function :: functions, f.Writable := h
    rw [List.forall_mem_cons] at h
    exact (Definition.spells joined h.1).append (ih h.2)

end Cinder
