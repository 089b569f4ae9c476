import Cinder.Program.Parse
import Cinder.Proofs.Token.Spans

/-!
# Syntax trees and their source

Parsing makes the spans of a tree from the spans of tokens, by joining them, and complains
about spans of tokens or of trees.  So whatever holds of the spans of the tokens and is kept
when spans are joined holds of every span of the tree and of every complaint.  Parsing also
reads no integer that does not fit 64 bits.
-/

namespace Cinder

/-! ## Trees from a source -/

def Literal.Bounded : Literal → Prop
  | .integer value => value < UInt64.size
  | _ => True

section

variable {σ τ : Type} (P : Span → Prop)

mutual

/-- The spans of an expression have a property, and its integers fit 64 bits. -/
def Expr.Sourced : Expr σ τ → Prop
  | .literal span _ value => P span ∧ value.Bounded
  | .ident span _ name _ => P span ∧ P name.span
  | .call span _ callee _ arguments => P span ∧ P callee.span ∧ Expr.SourcedAll arguments
  | .binary span _ _ opSpan lhs rhs => P span ∧ P opSpan ∧ lhs.Sourced ∧ rhs.Sourced
  | .negate span _ operand => P span ∧ operand.Sourced
  | .cast span _ operand target => P span ∧ operand.Sourced ∧ P target.span

def Expr.SourcedAll : List (Expr σ τ) → Prop
  | [] => True
  | expr :: rest => expr.Sourced ∧ Expr.SourcedAll rest

end

structure Local.Sourced (decl : Local σ τ) : Prop where
  span : P decl.span
  name : P decl.name.span
  ty : ∀ ty ∈ decl.ty, P ty.span
  initializer : ∀ value ∈ decl.initializer, value.Sourced P

mutual

def Statement.Sourced : Statement σ τ → Prop
  | .declare decl => decl.Sourced P
  | .assign span target _ value => P span ∧ P target.span ∧ value.Sourced P
  | .ret span value => P span ∧ ∀ e ∈ value, e.Sourced P
  | .ifThen span condition positive => P span ∧ condition.Sourced P ∧ positive.Sourced
  | .ifElse span condition positive negative =>
    P span ∧ condition.Sourced P ∧ positive.Sourced ∧ negative.Sourced
  | .expr span value => P span ∧ value.Sourced P

def Block.Sourced : Block σ τ → Prop
  | .mk span statements => P span ∧ Statement.SourcedAll statements

def Statement.SourcedAll : List (Statement σ τ) → Prop
  | [] => True
  | statement :: rest => statement.Sourced ∧ Statement.SourcedAll rest

end

structure Parameter.Sourced (parameter : Parameter σ) : Prop where
  span : P parameter.span
  name : P parameter.name.span
  ty : P parameter.ty.span

structure Definition.Sourced (function : Definition σ τ) : Prop where
  span : P function.span
  name : P function.name.span
  parameters : ∀ parameter ∈ function.parameters, parameter.Sourced P
  returnType : ∀ ty ∈ function.returnType, P ty.span
  body : function.body.Sourced P

variable {P}

theorem Expr.Sourced.span {e : Expr σ τ} (h : e.Sourced P) : P e.span := by
  cases e with
  | literal => exact h.1
  | ident => exact h.1
  | call => exact h.1
  | binary => exact h.1
  | negate => exact h.1
  | cast => exact h.1

theorem Expr.Sourced.withSpan {e : Expr σ τ} {span : Span} (h : e.Sourced P) (hspan : P span) :
    (e.withSpan span).Sourced P := by
  cases e with
  | literal => exact ⟨hspan, h.2⟩
  | ident => exact ⟨hspan, h.2⟩
  | call => exact ⟨hspan, h.2⟩
  | binary => exact ⟨hspan, h.2⟩
  | negate => exact ⟨hspan, h.2⟩
  | cast => exact ⟨hspan, h.2⟩

theorem Expr.sourcedAll_iff {es : List (Expr σ τ)} :
    Expr.SourcedAll P es ↔ ∀ e ∈ es, e.Sourced P := by
  induction es with
  | nil => simp [Expr.SourcedAll]
  | cons e es ih => rw [Expr.SourcedAll, ih, List.forall_mem_cons]

theorem Statement.Sourced.span {s : Statement σ τ} (h : s.Sourced P) : P s.span := by
  cases s with
  | declare => exact Local.Sourced.span h
  | assign => exact h.1
  | ret => exact h.1
  | ifThen => exact h.1
  | ifElse => exact h.1
  | expr => exact h.1

theorem Block.Sourced.span {b : Block σ τ} (h : b.Sourced P) : P b.span := by
  cases b with
  | mk => exact h.1

theorem Statement.sourcedAll_iff {ss : List (Statement σ τ)} :
    Statement.SourcedAll P ss ↔ ∀ s ∈ ss, s.Sourced P := by
  induction ss with
  | nil => simp [Statement.SourcedAll]
  | cons s ss ih => rw [Statement.SourcedAll, ih, List.forall_mem_cons]

end

/-- A property that spans joined from spans inherit. -/
structure Span.Joinable (P : Span → Prop) : Prop where
  start : P ⟨0, 0⟩
  through : ∀ {a b : Span}, P a → P b → P (a.through b)

theorem Span.joinable_within (cs : List Char) : Span.Joinable fun span => span.Within cs where
  start := .empty (.zero cs)
  through := .through

/-! ## Parsing -/

namespace Parse

variable {α β : Type} {P : Span → Prop} {Q : α → Prop} {R : β → Prop}

/-- A parser that gets tokens with a property of their spans: what it gives, and that it
leaves such tokens or complains about such a span. -/
def Keeps (P : Span → Prop) (Q : α → Prop) (p : Parser α) : Prop :=
  ∀ tokens : List Token, (∀ token ∈ tokens, P token.span) →
    Delivers (fun result => Q result.1 ∧ ∀ token ∈ result.2, P token.span)
      (fun diagnostic => P diagnostic.span) (p tokens)

theorem Keeps.pure {a : α} (h : Q a) : Keeps P Q (Pure.pure a) := by
  intro tokens htokens
  exact ⟨h, htokens⟩

theorem Keeps.bind {p : Parser α} {g : α → Parser β} (hp : Keeps P Q p)
    (hg : ∀ a, Q a → Keeps P R (g a)) : Keeps P R (p >>= g) := by
  intro tokens htokens
  apply Delivers.bind (hp tokens htokens)
  intro result hresult
  exact hg result.1 hresult.1 result.2 hresult.2

theorem keeps_get : Keeps P (fun _ => True) (get : Parser (List Token)) := by
  intro tokens htokens
  exact ⟨trivial, htokens⟩

theorem keeps_fail {complaint : Complaint} {span : Span} (h : P span) :
    Keeps P Q (fail complaint span) := by
  intro tokens htokens
  exact h

theorem keeps_unexpected {token : Token} {expected : String} (h : P token.span) :
    Keeps P Q (unexpected token expected) :=
  keeps_fail h

theorem keeps_advance : Keeps P (fun _ => True) advance := by
  intro tokens htokens
  refine ⟨trivial, ?_⟩
  intro token htoken
  exact htokens token (List.mem_of_mem_tail htoken)

theorem keeps_skipNewlines : Keeps P (fun _ => True) skipNewlines := by
  intro tokens htokens
  refine ⟨trivial, ?_⟩
  intro token htoken
  exact htokens token ((List.dropWhile_sublist _).mem htoken)

theorem keeps_literal {token : Token} (h : P token.span) :
    Keeps P Literal.Bounded (literal token) := by
  unfold literal
  split
  · exact .pure trivial
  · dsimp only
    split
    · rename_i hlt
      exact .pure hlt
    · exact keeps_fail h
  · exact .pure trivial

theorem keeps_some {p : Parser α} (hp : Keeps P Q p) :
    Keeps P (fun found => ∀ a ∈ found, Q a) (some <$> p) := by
  intro tokens htokens
  apply Delivers.bind (hp tokens htokens)
  intro result hresult
  refine ⟨?_, hresult.2⟩
  simpa using hresult.1

theorem keeps_declared {span : Span} {name : Ident} {ty : Option TypeRef}
    {initializer : Option Tree} (hspan : P span) (hname : P name.span)
    (hty : ∀ ref ∈ ty, P ref.span) (hinitializer : ∀ value ∈ initializer, value.Sourced P) :
    Keeps P (Local.Sourced P) (if ty.isNone && initializer.isNone then
      fail (.bareVariable name.name) span else return ⟨span, name, ty, initializer, ()⟩) := by
  split
  · exact keeps_fail hspan
  · exact .pure ⟨hspan, hname, hty, hinitializer⟩

theorem sourced_getD {found : Option α} {join : α → Span} {span : Span} (hspan : P span)
    (h : ∀ a ∈ found, P (join a)) : P ((found.map join).getD span) := by
  cases found with
  | none => exact hspan
  | some a => exact h a rfl

section

variable (hP : Span.Joinable P)
include hP

theorem sourced_headD {tokens : List Token} (h : ∀ token ∈ tokens, P token.span) :
    P (tokens.headD nothing).span := by
  cases tokens with
  | nil => exact hP.start
  | cons token rest => exact h token List.mem_cons_self

theorem keeps_peek : Keeps P (fun token => P token.span) peek := by
  intro tokens htokens
  exact ⟨sourced_headD hP htokens, htokens⟩

theorem keeps_peekSecond : Keeps P (fun token => P token.span) peekSecond := by
  intro tokens htokens
  refine ⟨sourced_headD hP ?_, htokens⟩
  intro token htoken
  exact htokens token (List.mem_of_mem_drop htoken)

theorem keeps_expect (kind : TokenKind) (expected : String) :
    Keeps P (fun token => P token.span) (expect kind expected) := by
  apply Keeps.bind (keeps_peek hP)
  intro token htoken
  split
  · apply Keeps.bind keeps_advance
    intro _ _
    exact .pure htoken
  · exact keeps_unexpected htoken

theorem keeps_identifier : Keeps P (fun name => P name.span) identifier := by
  apply Keeps.bind (keeps_expect hP _ _)
  intro token htoken
  exact .pure htoken

theorem keeps_typeRef : Keeps P (fun ty => P ty.span) typeRef := by
  apply Keeps.bind (keeps_expect hP _ _)
  intro token htoken
  split
  · exact .pure htoken
  · exact keeps_fail htoken

theorem keeps_typeRef? : Keeps P (fun found => ∀ ty ∈ found, P ty.span) typeRef? := by
  apply Keeps.bind (keeps_peek hP)
  intro token _
  split
  · apply Keeps.bind (keeps_typeRef hP)
    intro ty hty
    apply Keeps.pure
    simpa using hty
  · apply Keeps.pure
    simp

theorem keeps_commaSeparated {item : Parser α} (hitem : Keeps P Q item) (n : Nat) :
    Keeps P (fun items => ∀ a ∈ items, Q a) (commaSeparated item n) := by
  induction n with
  | zero =>
    apply Keeps.bind hitem
    intro first hfirst
    apply Keeps.pure
    simpa using hfirst
  | succ n ih =>
    apply Keeps.bind hitem
    intro first hfirst
    apply Keeps.bind (keeps_peek hP)
    intro token _
    split
    · apply Keeps.bind keeps_advance
      intro _ _
      apply Keeps.bind ih
      intro rest hrest
      exact .pure (List.forall_mem_cons.2 ⟨hfirst, hrest⟩)
    · apply Keeps.pure
      simpa using hfirst

theorem keeps_parenthesized {item : Parser α} (hitem : Keeps P Q item) :
    Keeps P (fun result => (∀ a ∈ result.1, Q a) ∧ P result.2.span) (parenthesized item) := by
  have hclose : ∀ items : List α, (∀ a ∈ items, Q a) →
      Keeps P (fun result => (∀ a ∈ result.1, Q a) ∧ P result.2.span)
        (do return (items, ← expect .closeParen "`)` or `,`")) := by
    intro items hitems
    apply Keeps.bind (keeps_expect hP _ _)
    intro close hclose
    exact .pure ⟨hitems, hclose⟩
  apply Keeps.bind (keeps_peek hP)
  intro token _
  split
  · exact hclose [] (by simp)
  · apply Keeps.bind keeps_get
    intro tokens _
    apply Keeps.bind (keeps_commaSeparated hP hitem _)
    exact hclose

/-! ### Expressions -/

theorem keeps_call {expression : Parser Tree} (h : Keeps P (Expr.Sourced P) expression) :
    Keeps P (Expr.Sourced P) (call expression) := by
  apply Keeps.bind (keeps_identifier hP)
  intro callee hcallee
  apply Keeps.bind (keeps_expect hP _ _)
  intro _ _
  apply Keeps.bind (keeps_parenthesized hP h)
  intro result hresult
  exact .pure ⟨hP.through hcallee hresult.2, hcallee, Expr.sourcedAll_iff.2 hresult.1⟩

theorem keeps_atom {expression : Parser Tree} (h : Keeps P (Expr.Sourced P) expression) :
    Keeps P (Expr.Sourced P) (atom expression) := by
  have hliteral : ∀ token : Token, P token.span → Keeps P (Expr.Sourced P)
      (do advance; return (.literal token.span () (← literal token) : Tree)) := by
    intro token htoken
    apply Keeps.bind keeps_advance
    intro _ _
    apply Keeps.bind (keeps_literal htoken)
    intro value hvalue
    exact .pure ⟨htoken, hvalue⟩
  apply Keeps.bind (keeps_peek hP)
  intro token htoken
  split
  · apply Keeps.bind (keeps_peekSecond hP)
    intro second _
    split
    · exact keeps_call hP h
    · apply Keeps.bind (keeps_identifier hP)
      intro name hname
      exact .pure ⟨hname, hname⟩
  · apply Keeps.bind keeps_advance
    intro _ _
    apply Keeps.bind h
    intro inner hinner
    apply Keeps.bind (keeps_expect hP _ _)
    intro close hclose
    exact .pure (hinner.withSpan (hP.through htoken hclose))
  · exact hliteral token htoken
  · exact hliteral token htoken
  · exact hliteral token htoken
  · exact keeps_unexpected htoken

theorem keeps_unary {expression : Parser Tree} (h : Keeps P (Expr.Sourced P) expression) :
    Keeps P (Expr.Sourced P) (unary expression) := by
  intro tokens htokens
  induction tokens with
  | nil => exact keeps_atom hP h [] htokens
  | cons token rest ih =>
    rw [unary]
    split
    · rw [List.forall_mem_cons] at htokens
      apply Delivers.bind (ih htokens.2)
      intro result hresult
      exact ⟨⟨hP.through htokens.1 hresult.1.span, hresult.1⟩, hresult.2⟩
    · exact keeps_atom hP h _ htokens

theorem keeps_casts (n : Nat) {e : Tree} (he : e.Sourced P) :
    Keeps P (Expr.Sourced P) (casts n e) := by
  induction n generalizing e with
  | zero => exact .pure he
  | succ n ih =>
    apply Keeps.bind (keeps_peek hP)
    intro token _
    split
    · apply Keeps.bind keeps_advance
      intro _ _
      apply Keeps.bind (keeps_typeRef hP)
      intro target htarget
      exact ih ⟨hP.through he.span htarget, he, htarget⟩
    · exact .pure he

theorem keeps_cast {expression : Parser Tree} (h : Keeps P (Expr.Sourced P) expression) :
    Keeps P (Expr.Sourced P) (cast expression) := by
  apply Keeps.bind (keeps_unary hP h)
  intro e he
  apply Keeps.bind keeps_get
  intro tokens _
  exact keeps_casts hP _ he

theorem keeps_chain {op? : TokenKind → Option Operator} {operand : Parser Tree}
    (h : Keeps P (Expr.Sourced P) operand) (n : Nat) {e : Tree} (he : e.Sourced P) :
    Keeps P (Expr.Sourced P) (chain op? operand n e) := by
  induction n generalizing e with
  | zero => exact .pure he
  | succ n ih =>
    apply Keeps.bind (keeps_peek hP)
    intro token htoken
    split
    · exact .pure he
    · apply Keeps.bind keeps_advance
      intro _ _
      apply Keeps.bind h
      intro rhs hrhs
      exact ih ⟨hP.through he.span hrhs.span, htoken, he, hrhs⟩

theorem keeps_level {op? : TokenKind → Option Operator} {operand : Parser Tree}
    (h : Keeps P (Expr.Sourced P) operand) : Keeps P (Expr.Sourced P) (level op? operand) := by
  apply Keeps.bind h
  intro e he
  apply Keeps.bind keeps_get
  intro tokens _
  exact keeps_chain hP h _ he

theorem keeps_nested (n : Nat) : Keeps P (Expr.Sourced P) (nested n) := by
  induction n with
  | zero =>
    apply Keeps.bind (keeps_peek hP)
    intro token htoken
    exact keeps_unexpected htoken
  | succ n ih => exact keeps_level hP (keeps_level hP (keeps_level hP (keeps_cast hP ih)))

theorem keeps_expression : Keeps P (Expr.Sourced P) expression := by
  apply Keeps.bind keeps_get
  intro tokens _
  exact keeps_nested hP _

/-! ### Statements -/

theorem keeps_endOfStatement : Keeps P (fun _ => True) endOfStatement := by
  apply Keeps.bind (keeps_expect hP _ _)
  intro _ _
  exact .pure trivial

theorem keeps_statements {statement : Parser Step}
    (h : Keeps P (Statement.Sourced P) statement) (n : Nat) :
    Keeps P (Statement.SourcedAll P) (statements statement n) := by
  induction n with
  | zero => exact .pure trivial
  | succ n ih =>
    apply Keeps.bind (keeps_peek hP)
    intro token _
    split
    · exact .pure trivial
    · exact .pure trivial
    · apply Keeps.bind h
      intro first hfirst
      apply Keeps.bind ih
      intro rest hrest
      exact .pure ⟨hfirst, hrest⟩

theorem keeps_block {statement : Parser Step} (h : Keeps P (Statement.Sourced P) statement) :
    Keeps P (Block.Sourced P) (block statement) := by
  apply Keeps.bind (keeps_expect hP _ _)
  intro newline hnewline
  apply Keeps.bind (keeps_peek hP)
  intro indent hindent
  split
  · apply Keeps.bind keeps_advance
    intro _ _
    apply Keeps.bind keeps_get
    intro tokens _
    apply Keeps.bind (keeps_statements hP h _)
    intro body hbody
    apply Keeps.bind (keeps_expect hP _ _)
    intro _ _
    apply Keeps.pure
    refine ⟨hP.through hnewline ?_, hbody⟩
    cases hlast : body.getLast? with
    | none => exact hnewline
    | some last =>
      exact (Statement.sourcedAll_iff.1 hbody last (List.mem_of_getLast? hlast)).span
  · exact keeps_fail hindent

theorem keeps_declaration : Keeps P (Local.Sourced P) declaration := by
  apply Keeps.bind (keeps_expect hP _ _)
  intro start hstart
  apply Keeps.bind (keeps_identifier hP)
  intro name hname
  apply Keeps.bind (keeps_typeRef? hP)
  intro ty hty
  have hspan : P ((ty.map fun ty => (start.span.through name.span).through ty.span).getD
      (start.span.through name.span)) :=
    sourced_getD (hP.through hstart hname) fun ty hmem =>
      hP.through (hP.through hstart hname) (hty ty hmem)
  apply Keeps.bind (keeps_peek hP)
  intro token _
  split
  · apply Keeps.bind keeps_advance
    intro _ _
    apply Keeps.bind (keeps_some (keeps_expression hP))
    intro initializer hinitializer
    exact keeps_declared
      (sourced_getD hspan fun value hmem => hP.through hspan (hinitializer value hmem).span)
      hname hty hinitializer
  · exact keeps_declared hspan hname hty (by simp)

theorem keeps_returned {start : Span} {value : Option Tree} (hstart : P start)
    (hvalue : ∀ e ∈ value, e.Sourced P) :
    Keeps P (Statement.Sourced P) (do
      endOfStatement
      return .ret ((value.map fun value => start.through value.span).getD start) value) := by
  apply Keeps.bind (keeps_endOfStatement hP)
  intro _ _
  apply Keeps.pure
  refine ⟨?_, hvalue⟩
  exact sourced_getD hstart fun e hmem => hP.through hstart (hvalue e hmem).span

theorem keeps_returnStatement : Keeps P (Statement.Sourced P) returnStatement := by
  apply Keeps.bind (keeps_expect hP _ _)
  intro start hstart
  apply Keeps.bind (keeps_peek hP)
  intro token _
  split
  · exact keeps_returned hP hstart (by simp)
  · apply Keeps.bind (keeps_some (keeps_expression hP))
    intro value hvalue
    exact keeps_returned hP hstart hvalue

theorem keeps_conditional {statement : Parser Step}
    (h : Keeps P (Statement.Sourced P) statement) :
    Keeps P (Statement.Sourced P) (conditional statement) := by
  apply Keeps.bind (keeps_expect hP _ _)
  intro start hstart
  apply Keeps.bind (keeps_expression hP)
  intro condition hcondition
  apply Keeps.bind (keeps_expect hP _ _)
  intro _ _
  apply Keeps.bind (keeps_block hP h)
  intro positive hpositive
  have hspan : P (start.span.through positive.span) := hP.through hstart hpositive.span
  apply Keeps.bind (keeps_peek hP)
  intro token _
  split
  · apply Keeps.bind keeps_advance
    intro _ _
    apply Keeps.bind (keeps_peek hP)
    intro second _
    split
    · apply Keeps.bind h
      intro inner hinner
      exact .pure
        ⟨hP.through hspan hinner.span, hcondition, hpositive, hinner.span, hinner, trivial⟩
    · apply Keeps.bind (keeps_expect hP _ _)
      intro _ _
      apply Keeps.bind (keeps_block hP h)
      intro negative hnegative
      exact .pure ⟨hP.through hspan hnegative.span, hcondition, hpositive, hnegative⟩
  · exact .pure ⟨hspan, hcondition, hpositive⟩

theorem keeps_statementWith {inner : Parser Step} (h : Keeps P (Statement.Sourced P) inner) :
    Keeps P (Statement.Sourced P) (statementWith inner) := by
  apply Keeps.bind (keeps_peek hP)
  intro token _
  split
  · apply Keeps.bind (keeps_declaration hP)
    intro decl hdecl
    apply Keeps.bind (keeps_endOfStatement hP)
    intro _ _
    exact .pure hdecl
  · exact keeps_returnStatement hP
  · exact keeps_conditional hP h
  · apply Keeps.bind (keeps_peekSecond hP)
    intro second _
    split
    · apply Keeps.bind (keeps_identifier hP)
      intro target htarget
      apply Keeps.bind keeps_advance
      intro _ _
      apply Keeps.bind (keeps_expression hP)
      intro value hvalue
      apply Keeps.bind (keeps_endOfStatement hP)
      intro _ _
      exact .pure ⟨hP.through htarget hvalue.span, htarget, hvalue⟩
    · apply Keeps.bind (keeps_expression hP)
      intro value hvalue
      apply Keeps.bind (keeps_endOfStatement hP)
      intro _ _
      exact .pure ⟨hvalue.span, hvalue⟩

theorem keeps_statement (n : Nat) : Keeps P (Statement.Sourced P) (statement n) := by
  induction n with
  | zero =>
    apply Keeps.bind (keeps_peek hP)
    intro token htoken
    exact keeps_unexpected htoken
  | succ n ih => exact keeps_statementWith hP ih

/-! ### Definitions -/

theorem keeps_parameter : Keeps P (Parameter.Sourced P) parameter := by
  apply Keeps.bind (keeps_identifier hP)
  intro name hname
  apply Keeps.bind (keeps_typeRef hP)
  intro ty hty
  exact .pure ⟨hP.through hname hty, hname, hty⟩

theorem keeps_definition : Keeps P (Definition.Sourced P) definition := by
  apply Keeps.bind (keeps_expect hP _ _)
  intro start hstart
  apply Keeps.bind (keeps_identifier hP)
  intro name hname
  apply Keeps.bind (keeps_expect hP _ _)
  intro _ _
  apply Keeps.bind (keeps_parenthesized hP (keeps_parameter hP))
  intro result hparameters
  apply Keeps.bind (keeps_typeRef? hP)
  intro returnType hreturnType
  apply Keeps.bind (keeps_expect hP _ _)
  intro _ _
  apply Keeps.bind keeps_get
  intro tokens _
  apply Keeps.bind (keeps_block hP (keeps_statement hP _))
  intro body hbody
  exact .pure ⟨hP.through hstart hbody.span, hname, hparameters.1, hreturnType, hbody⟩

theorem keeps_definitions (n : Nat) :
    Keeps P (fun functions => ∀ function ∈ functions, function.Sourced P) (definitions n) := by
  induction n with
  | zero => exact .pure (by simp)
  | succ n ih =>
    apply Keeps.bind keeps_skipNewlines
    intro _ _
    apply Keeps.bind (keeps_peek hP)
    intro token _
    split
    · exact .pure (by simp)
    · apply Keeps.bind (keeps_definition hP)
      intro first hfirst
      apply Keeps.bind ih
      intro rest hrest
      exact .pure (List.forall_mem_cons.2 ⟨hfirst, hrest⟩)

end

end Parse

/-- The spans of a parsed program stand within its text, and so do complaints about the
text. -/
theorem Program.delivers_parse (text : String) :
    Delivers (fun program => ∀ function ∈ program.functions,
        function.Sourced fun span => span.Within text.toList)
      (fun diagnostic => diagnostic.span.Within text.toList) (Program.parse text) := by
  apply Delivers.bind (delivers_tokenize text)
  intro tokens htokens
  have hparse := Parse.keeps_definitions (Span.joinable_within text.toList) (tokens.length + 1)
  apply Delivers.bind (hparse tokens htokens)
  intro result hresult
  exact hresult.1

end Cinder
