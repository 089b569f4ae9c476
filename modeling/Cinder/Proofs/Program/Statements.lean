import Cinder.Proofs.Program.Descent

/-!
# Reading statements

Given the tokens of a statement, the parser of statements gives the statement back, up to the
places in the text.  A conditional without an alternative is read as such only if no `else`
follows it, which neither a statement nor the end of a block begins with.
-/

namespace Cinder

/-! ## Statements without places -/

section

variable {σ τ : Type}

def Local.unplaced (decl : Local σ τ) : Local σ τ :=
  ⟨.nowhere, decl.name.unplaced, decl.ty.map TypeRef.unplaced, decl.initializer.map Expr.unplaced,
    decl.symbol⟩

mutual

def Statement.unplaced : Statement σ τ → Statement σ τ
  | .declare decl => .declare decl.unplaced
  | .assign _ target symbol value => .assign .nowhere target.unplaced symbol value.unplaced
  | .ret _ value => .ret .nowhere (value.map Expr.unplaced)
  | .ifThen _ condition positive => .ifThen .nowhere condition.unplaced positive.unplaced
  | .ifElse _ condition positive negative =>
    .ifElse .nowhere condition.unplaced positive.unplaced negative.unplaced
  | .expr _ value => .expr .nowhere value.unplaced

def Block.unplaced : Block σ τ → Block σ τ
  | .mk _ statements => .mk .nowhere (Statement.unplacedAll statements)

def Statement.unplacedAll : List (Statement σ τ) → List (Statement σ τ)
  | [] => []
  | statement :: rest => statement.unplaced :: Statement.unplacedAll rest

end

end

namespace Parse

def AlikeStatement (s found : Step) : Prop :=
  found.unplaced = s.unplaced

/-! ## Simple statements -/

section

variable {α β : Type} {F G : TokenKind → Prop} {Q : α → Prop} {R : β → Prop} {ls : List Lexeme}

theorem Accepts.some {p : Parser α} (h : Accepts F p ls Q) :
    Accepts F (Option.some <$> p) ls fun found => ∃ a, found = Option.some a ∧ Q a := by
  rw [map_eq_pure_bind]
  apply h.map
  intro a ha
  exact ⟨a, rfl, ha⟩

theorem Accepts.endOfStatement {g : Unit → Parser β} (h : Accepts G (g ()) ls R) :
    Accepts G (Parse.endOfStatement >>= g) (⟨.newline, ""⟩ :: ls) R := by
  rw [Parse.endOfStatement, bind_assoc]
  apply Accepts.expect
  intro _ _
  exact h

theorem accepts_typeRef? (ty : Option TypeRef) :
    Accepts (· ≠ .type) typeRef? (TypeRef.lexemes ty)
      fun found => found.map TypeRef.unplaced = ty.map TypeRef.unplaced := by
  cases ty with
  | none =>
    apply Accepts.peek_nil
    intro token hkind
    rw [if_neg hkind]
    exact .pure rfl
  | some ty =>
    apply Accepts.peek_kind
    intro token hkind
    rw [if_pos hkind]
    apply Accepts.typeRef
    intro found hfound
    apply Accepts.pure
    rw [Option.map_some, Option.map_some, TypeRef.unplaced, TypeRef.unplaced, hfound]

end

theorem unplaced_ident {name found : Ident} (h : found.name = name.name) :
    found.unplaced = name.unplaced := by
  rw [Ident.unplaced, Ident.unplaced, h]

variable {F : TokenKind → Prop} {decl : Local Unit Unit} {span : Span} {inner p : Parser Step}
  {ss : List Step} {joined : Bool} {condition : Tree}

/-- The end of a declaration, once it is known whether it has an initializer. -/
theorem accepts_declared (h : decl.Writable) {name : Ident} {ty : Option TypeRef}
    {initializer : Option Tree} (hname : name.name = decl.name.name)
    (hty : ty.map TypeRef.unplaced = decl.ty.map TypeRef.unplaced)
    (hinitializer : initializer.map Expr.unplaced = decl.initializer.map Expr.unplaced) :
    Accepts F (if ty.isNone && initializer.isNone then fail (.bareVariable name.name) span
      else return ⟨span, name, ty, initializer, ()⟩) []
      fun found : Local Unit Unit => found.unplaced = decl.unplaced := by
  have hbare : ¬ (ty.isNone && initializer.isNone) = true := by
    have htyped := h.typed
    rw [← Option.isSome_map (f := TypeRef.unplaced), ← hty, Option.isSome_map,
      ← Option.isSome_map (f := Expr.unplaced), ← hinitializer, Option.isSome_map] at htyped
    cases ty <;> cases initializer <;> simp at htyped ⊢
  rw [if_neg hbare]
  apply Accepts.pure
  rw [Local.unplaced, Local.unplaced, unplaced_ident hname, hty, hinitializer]

theorem accepts_declaration (h : decl.Writable) :
    Accepts (· = .newline) declaration decl.lexemes
      fun found => found.unplaced = decl.unplaced := by
  unfold Local.lexemes
  apply Accepts.expect
  intro start _
  apply Accepts.identifier
  intro name hname
  apply (accepts_typeRef? decl.ty).bind
  · intro kind hkind
    cases decl.initializer with
    | none =>
      rw [hkind]
      decide
    | some value => exact (by decide : TokenKind.equals ≠ .type)
  · intro ty hty
    dsimp only
    cases hvalue : decl.initializer with
    | none =>
      apply Accepts.peek_nil
      intro token hkind
      rw [if_neg (by rw [hkind]; decide), pure_bind]
      exact accepts_declared h hname hty (by rw [hvalue])
    | some value =>
      apply Accepts.peek_kind
      intro token hkind
      rw [if_pos hkind]
      apply Accepts.advance
      apply (accepts_expression (h.initializer value hvalue)).some.last
      · rintro _ rfl
        exact stops_of_rung?_eq_none rfl 0
      · rintro _ ⟨found, rfl, hfound⟩
        exact accepts_declared h hname hty (by rw [hvalue, Option.map_some, hfound]; rfl)

theorem accepts_return {value : Option Tree} (h : ∀ e ∈ value, e.Writable) (joined : Bool) :
    Accepts F (statementWith inner) ((Statement.ret span value).lexemes joined)
      (AlikeStatement (.ret span value)) := by
  cases value with
  | none =>
    apply Accepts.peek_kind
    intro token hkind
    rw [hkind]
    apply Accepts.expect
    intro start _
    apply Accepts.peek_kind
    intro newline hnewline
    dsimp only
    rw [if_pos hnewline, pure_bind]
    apply Accepts.endOfStatement
    exact .pure rfl
  | some value =>
    have hvalue := (accepts_expression (h value rfl)).some
    obtain ⟨l, ls, hls, hl⟩ := exists_lexemes_cons value 0
    rw [Statement.lexemes]
    rw [hls] at hvalue ⊢
    apply Accepts.peek_kind
    intro token hkind
    rw [hkind]
    apply Accepts.expect
    intro start _
    apply Accepts.peek
    intro first hfirst
    have hnewline : first.kind ≠ .newline := by
      rw [← Token.lexeme_kind, hfirst]
      intro hnewline
      rw [hnewline] at hl
      cases hl
    dsimp only
    rw [if_neg hnewline]
    apply hvalue.bind
    · intro _ _
      exact stops_of_rung?_eq_none rfl 0
    · rintro _ ⟨found, rfl, hfound⟩
      apply Accepts.endOfStatement
      apply Accepts.pure
      show Statement.ret _ _ = Statement.ret _ _
      rw [Option.map_some, Option.map_some, hfound]

theorem accepts_assignment {target : Ident} {value : Tree} (h : value.Writable) (joined : Bool) :
    Accepts F (statementWith inner) ((Statement.assign span target () value).lexemes joined)
      (AlikeStatement (.assign span target () value)) := by
  apply Accepts.peek_kind
  intro token hkind
  rw [hkind]
  apply Accepts.peekSecond
  rintro second ⟨_, _, hsecond⟩
  have hequals : second.kind = .equals := hsecond
  rw [if_pos ⟨rfl, hequals⟩]
  apply Accepts.identifier
  intro name hname
  apply Accepts.advance
  apply (accepts_expression h).bind
  · intro _ _
    exact stops_of_rung?_eq_none rfl 0
  · intro found hfound
    apply Accepts.endOfStatement
    apply Accepts.pure
    show Statement.assign _ _ _ _ = Statement.assign _ _ _ _
    rw [unplaced_ident hname, hfound]

theorem mem_intercalate {l : Lexeme} {lss : List (List Lexeme)}
    (h : l ∈ [⟨.comma, ""⟩].intercalate lss) : l.kind = .comma ∨ ∃ ls ∈ lss, l ∈ ls := by
  induction lss with
  | nil => simp at h
  | cons ls lss ih =>
    cases lss with
    | nil => exact .inr ⟨ls, by simp, by simpa using h⟩
    | cons ls' lss =>
      rw [List.intercalate_cons_cons, List.append_assoc, List.mem_append, List.mem_append] at h
      rcases h with h | h | h
      · exact .inr ⟨ls, by simp, h⟩
      · exact .inl (by rw [List.mem_singleton.1 h])
      · rcases ih h with hcomma | ⟨ls'', hmem, hl⟩
        · exact .inl hcomma
        · exact .inr ⟨ls'', List.mem_cons_of_mem _ hmem, hl⟩

theorem kind_ne_equals_enclosedIf {needed : Bool} {ls : List Lexeme}
    (h : ∀ l ∈ ls, l.kind ≠ .equals) : ∀ l ∈ Lexeme.enclosedIf needed ls, l.kind ≠ .equals := by
  cases needed with
  | false => exact h
  | true =>
    rw [Lexeme.enclosedIf, if_pos rfl, List.forall_mem_append, List.forall_mem_cons]
    exact ⟨⟨by simp, h⟩, by simp⟩

mutual

theorem kind_ne_equals : ∀ (e : Tree) (rung : Nat), ∀ l ∈ e.lexemes rung, l.kind ≠ .equals
  | .literal _ _ value, _ => by cases value <;> simp [Expr.lexemes, Literal.lexeme]
  | .ident .., _ => by simp [Expr.lexemes]
  | .call _ _ _ _ arguments, _ => by
    rw [Expr.lexemes, Lexeme.listed, List.forall_mem_cons, List.forall_mem_append,
      List.forall_mem_cons]
    refine ⟨by simp, ⟨by simp, ?_⟩, by simp⟩
    intro l hl
    rcases mem_intercalate hl with hcomma | ⟨ls, hls, hl⟩
    · rw [hcomma]
      decide
    · exact kinds_ne_equals arguments ls hls l hl
  | .binary _ _ op _ lhs rhs, _ => by
    apply kind_ne_equals_enclosedIf
    rw [List.forall_mem_append, List.forall_mem_cons]
    exact ⟨kind_ne_equals lhs _, by cases op <;> simp [Operator.kind], kind_ne_equals rhs _⟩
  | .negate _ _ operand, _ => by
    rw [Expr.lexemes, List.forall_mem_cons]
    exact ⟨by simp, kind_ne_equals operand 4⟩
  | .cast _ _ operand target, _ => by
    apply kind_ne_equals_enclosedIf
    rw [List.forall_mem_append]
    exact ⟨kind_ne_equals operand 3, by simp⟩

theorem kinds_ne_equals : ∀ (es : List Tree), ∀ ls ∈ Expr.lexemesAll es, ∀ l ∈ ls,
    l.kind ≠ .equals
  | [] => by simp [Expr.lexemesAll]
  | e :: es => by
    rw [Expr.lexemesAll, List.forall_mem_cons]
    exact ⟨kind_ne_equals e 0, kinds_ne_equals es⟩

end

theorem accepts_evaluation {value : Tree} (h : value.Writable) (joined : Bool) :
    Accepts F (statementWith inner) ((Statement.expr span value).lexemes joined)
      (AlikeStatement (.expr span value)) := by
  have hvalue := accepts_expression h
  have hequals := kind_ne_equals value 0
  obtain ⟨l, ls, hls, hl⟩ := exists_lexemes_cons value 0
  rw [Statement.lexemes]
  rw [hls] at hvalue hequals ⊢
  rw [List.forall_mem_cons] at hequals
  -- whatever the expression begins with, it is read as an expression
  have hread : Accepts F (do
      let value ← expression
      endOfStatement
      return .expr value.span value) (l :: ls ++ [⟨.newline, ""⟩])
      (AlikeStatement (.expr span value)) := by
    apply hvalue.bind
    · intro _ _
      exact stops_of_rung?_eq_none rfl 0
    · intro found hfound
      apply Accepts.endOfStatement
      apply Accepts.pure
      show Statement.expr _ _ = Statement.expr _ _
      rw [hfound]
  apply Accepts.peek
  intro token htoken
  have hopens : opens token.kind = true := by
    rw [← Token.lexeme_kind, htoken]
    exact hl
  split
  case h_1 hkind | h_2 hkind | h_3 hkind =>
    rw [hkind] at hopens
    cases hopens
  case h_4 =>
    apply Accepts.peekSecond
    rintro second ⟨kind, _, hsecond⟩
    have hne : second.kind ≠ .equals := by
      rw [hsecond]
      cases ls with
      | nil => exact (by decide : TokenKind.newline ≠ .equals)
      | cons l' ls => exact hequals.2 l' List.mem_cons_self
    rw [if_neg fun hboth => hne hboth.2]
    exact hread

/-! ## Blocks -/

theorem unplacedAll_eq_map (ss : List Step) :
    Statement.unplacedAll ss = ss.map Statement.unplaced := by
  induction ss with
  | nil => rfl
  | cons s ss ih => rw [Statement.unplacedAll, ih, List.map_cons]

theorem unplaced_block {span' : Span} {found : List Step}
    (h : List.Forall₂ AlikeStatement ss found) :
    (Block.mk span' found).unplaced = (Block.mk span ss).unplaced := by
  have hmap : ss.map Statement.unplaced = found.map Statement.unplaced :=
    map_eq_map_of_forall₂ (h.imp fun _ _ h => h.symm)
  rw [Block.unplaced, Block.unplaced, unplacedAll_eq_map, unplacedAll_eq_map, hmap]

def begins (kind : TokenKind) : Bool :=
  opens kind || kind == .keyword .var || kind == .keyword .ret || kind == .keyword .when

theorem exists_statement_lexemes_cons (joined : Bool) (s : Step) :
    ∃ l ls, s.lexemes joined = l :: ls ∧ begins l.kind = true := by
  cases s with
  | declare => exact ⟨_, _, rfl, rfl⟩
  | assign => exact ⟨_, _, rfl, rfl⟩
  | ret _ value => cases value <;> exact ⟨_, _, rfl, rfl⟩
  | ifThen => exact ⟨_, _, rfl, rfl⟩
  | ifElse => exact ⟨_, _, rfl, rfl⟩
  | expr _ value =>
    obtain ⟨l, ls, hls, hl⟩ := exists_lexemes_cons value 0
    rw [Statement.lexemes, hls]
    exact ⟨l, _, rfl, by simp [begins, hl]⟩

theorem length_lexemesAll (joined : Bool) (ss : List Step) :
    ss.length ≤ (Statement.lexemesAll joined ss).length ∧
      ∀ s ∈ ss, (s.lexemes joined).length ≤ (Statement.lexemesAll joined ss).length := by
  induction ss with
  | nil => simp
  | cons s ss ih =>
    obtain ⟨l, ls, hls, _⟩ := exists_statement_lexemes_cons joined s
    rw [Statement.lexemesAll, List.length_append, List.forall_mem_cons]
    refine ⟨?_, Nat.le_add_right _ _, ?_⟩
    · rw [hls, List.length_cons, List.length_cons]
      omega
    · intro s hs
      exact Nat.le_trans (ih.2 s hs) (Nat.le_add_left _ _)

/-- A parser that reads each of some statements.  What follows a statement is not taken for the
alternative of a conditional. -/
def AcceptsEach (joined : Bool) (p : Parser Step) (ss : List Step) : Prop :=
  ∀ s ∈ ss, Accepts (· ≠ .keyword .otherwise) p (s.lexemes joined) (AlikeStatement s)

theorem accepts_statements (h : AcceptsEach joined p ss) {n : Nat} (hn : ss.length ≤ n) :
    Accepts (· = .dedent) (statements p n) (Statement.lexemesAll joined ss)
      (List.Forall₂ AlikeStatement ss) := by
  induction ss generalizing n with
  | nil =>
    cases n with
    | zero => exact .pure .nil
    | succ n =>
      apply Accepts.peek_nil
      intro token hkind
      rw [hkind]
      exact .pure .nil
  | cons s ss ih =>
    obtain ⟨n, rfl⟩ : ∃ m, n = m + 1 := Nat.exists_eq_add_of_le' (by simp at hn; omega)
    rw [AcceptsEach, List.forall_mem_cons] at h
    have hread : Accepts (· = .dedent) (do
        let first ← p
        return first :: (← statements p n)) (Statement.lexemesAll joined (s :: ss))
        (List.Forall₂ AlikeStatement (s :: ss)) := by
      apply h.1.bind
      · rintro _ rfl
        cases ss with
        | nil =>
          show TokenKind.dedent ≠ _
          decide
        | cons s' ss =>
          obtain ⟨l, ls, hls, hl⟩ := exists_statement_lexemes_cons joined s'
          rw [Statement.lexemesAll, hls, List.cons_append, firstKind_cons]
          intro hotherwise
          rw [hotherwise] at hl
          cases hl
      · intro first hfirst
        apply (ih h.2 (by simpa using hn)).map
        intro rest hrest
        exact .cons hfirst hrest
    obtain ⟨l, ls, hls, hl⟩ := exists_statement_lexemes_cons joined s
    rw [Statement.lexemesAll, hls] at hread ⊢
    apply Accepts.peek
    intro token htoken
    have hbegins : begins token.kind = true := by
      rw [← Token.lexeme_kind, htoken]
      exact hl
    split
    case h_1 hkind | h_2 hkind =>
      rw [hkind] at hbegins
      cases hbegins
    case h_3 => exact hread

theorem accepts_block (span : Span) (h : AcceptsEach joined p ss) :
    Accepts F (block p)
      (⟨.newline, ""⟩ :: ⟨.indent, ""⟩ :: Statement.lexemesAll joined ss ++ [⟨.dedent, ""⟩])
      fun found => found.unplaced = (Block.mk span ss).unplaced := by
  rw [List.cons_append, List.cons_append]
  apply Accepts.expect
  intro newline _
  apply Accepts.peek_kind
  intro indent hkind
  rw [if_pos hkind]
  apply Accepts.advance
  apply Accepts.get
  intro all hall
  apply (accepts_statements h ?_).bind
  · intro _ _
    rfl
  · intro found hfound
    apply Accepts.expect
    intro _ _
    apply Accepts.pure
    exact unplaced_block hfound
  · have := (length_lexemesAll joined ss).1
    rw [List.length_append] at hall
    omega

/-! ## Conditional statements -/

theorem accepts_condition {G : TokenKind → Prop} {R : Step → Prop} {ls : List Lexeme}
    {g : Token → Tree → Block Unit Unit → Parser Step} (hcondition : condition.Writable)
    (h : AcceptsEach joined p ss)
    (hg : ∀ start found positive, Alike condition found →
      positive.unplaced = (Block.mk span ss).unplaced → Accepts G (g start found positive) ls R) :
    Accepts G (do
      let start ← keyword .when
      let condition ← expression
      let _ ← expect .colon "`:`"
      let positive ← block p
      g start condition positive)
      (⟨.keyword .when, ""⟩ :: condition.lexemes 0 ++ [⟨.colon, ""⟩] ++
        (⟨.newline, ""⟩ :: ⟨.indent, ""⟩ :: Statement.lexemesAll joined ss ++ [⟨.dedent, ""⟩]) ++
        ls) R := by
  rw [List.append_assoc, List.append_assoc, List.cons_append]
  apply Accepts.expect
  intro start _
  apply (accepts_expression hcondition).bind
  · intro _ _
    exact stops_of_rung?_eq_none rfl 0
  · intro found hfound
    apply Accepts.expect
    intro _ _
    apply (accepts_block (F := fun _ => True) span h).bind
    · intro _ _
      exact trivial
    · intro positive hpositive
      exact hg start found positive hfound hpositive

theorem accepts_ifThen {inner : Span} (hcondition : condition.Writable)
    (h : AcceptsEach joined p ss) :
    Accepts (· ≠ .keyword .otherwise) (statementWith p)
      ((Statement.ifThen span condition (.mk inner ss)).lexemes joined)
      (AlikeStatement (.ifThen span condition (.mk inner ss))) := by
  rw [Statement.lexemes, ← List.append_nil (_ ++ (_ :: _ :: _ ++ _))]
  apply Accepts.peek_kind
  intro token hkind
  rw [hkind]
  apply accepts_condition hcondition h
  intro start found positive hfound hpositive
  apply Accepts.peek_nil
  intro next hnext
  rw [if_neg hnext]
  apply Accepts.pure
  show Statement.ifThen _ _ _ = Statement.ifThen _ _ _
  rw [hfound, hpositive]

theorem exists_of_isConditional (joined : Bool) (h : (Block.mk span ss).isConditional = true) :
    ∃ s ls, ss = [s] ∧ s.lexemes joined = ⟨.keyword .when, ""⟩ :: ls := by
  unfold Block.isConditional at h
  split at h
  · rename_i heq
    cases heq
    exact ⟨_, _, rfl, rfl⟩
  · rename_i heq
    cases heq
    exact ⟨_, _, rfl, rfl⟩
  · cases h

theorem accepts_ifElse {first second : Span} {ss' : List Step} (hcondition : condition.Writable)
    (h : AcceptsEach joined p ss) (h' : AcceptsEach joined p ss') :
    Accepts (· ≠ .keyword .otherwise) (statementWith p)
      ((Statement.ifElse span condition (.mk first ss) (.mk second ss')).lexemes joined)
      (AlikeStatement (.ifElse span condition (.mk first ss) (.mk second ss'))) := by
  rw [Statement.lexemes]
  apply Accepts.peek_kind
  intro token hkind
  rw [hkind]
  apply accepts_condition hcondition h
  intro start found positive hfound hpositive
  have hend : ∀ negative : Block Unit Unit,
      negative.unplaced = (Block.mk second ss').unplaced →
      AlikeStatement (.ifElse span condition (.mk first ss) (.mk second ss'))
        (.ifElse ((start.span.through positive.span).through negative.span) found positive
          negative) := by
    intro negative hnegative
    show Statement.ifElse _ _ _ _ = Statement.ifElse _ _ _ _
    rw [hfound, hpositive, hnegative]
  split
  case isTrue hjoined =>
    rw [Bool.and_eq_true] at hjoined
    obtain ⟨s, ls, rfl, hls⟩ := exists_of_isConditional joined hjoined.2
    have hs := h' s List.mem_cons_self
    rw [Block.lexemes, Statement.lexemesAll, Statement.lexemesAll, List.append_nil]
    rw [hls] at hs ⊢
    apply Accepts.peek_kind
    intro otherwise hotherwise
    rw [if_pos hotherwise]
    apply Accepts.advance
    apply Accepts.peek_kind
    intro next hnext
    dsimp only
    rw [if_pos hnext]
    apply hs.last (fun _ h => h)
    intro inner hinner
    rw [pure_bind]
    apply Accepts.pure
    exact hend _ (unplaced_block (.cons hinner .nil))
  case isFalse =>
    apply Accepts.peek_kind
    intro otherwise hotherwise
    rw [if_pos hotherwise]
    apply Accepts.advance
    apply Accepts.peek_kind
    intro next hnext
    dsimp only
    rw [if_neg (by rw [hnext]; decide)]
    apply Accepts.expect
    intro _ _
    apply (accepts_block (F := (· ≠ .keyword .otherwise)) second h').last (fun _ h => h)
    intro negative hnegative
    apply Accepts.pure
    exact hend negative hnegative

/-! ## Statements -/

theorem accepts_declare (h : decl.Writable) (joined : Bool) :
    Accepts F (statementWith inner) ((Statement.declare decl).lexemes joined)
      (AlikeStatement (.declare decl)) := by
  have hread : Accepts F (do
      let decl ← declaration
      endOfStatement
      return .declare decl) (decl.lexemes ++ [⟨.newline, ""⟩])
      (AlikeStatement (.declare decl)) := by
    apply (accepts_declaration h).bind
    · intro _ _
      rfl
    · intro found hfound
      apply Accepts.endOfStatement
      apply Accepts.pure
      show Statement.declare _ = Statement.declare _
      rw [hfound]
  apply Accepts.peek_kind
  intro token hkind
  rw [hkind]
  exact hread

theorem length_ifElse (joined : Bool) (span first second : Span) (condition : Tree)
    (ss ss' : List Step) :
    (Statement.lexemesAll joined ss).length + (Statement.lexemesAll joined ss').length <
      ((Statement.ifElse span condition (.mk first ss) (.mk second ss')).lexemes
        joined).length := by
  rw [Statement.lexemes, Block.lexemes, Block.lexemes]
  split
  · simp
    omega
  · simp
    omega

mutual

theorem accepts_statement (joined : Bool) : ∀ {s : Step}, s.Writable → ∀ {n : Nat},
    (s.lexemes joined).length ≤ n →
      Accepts (· ≠ .keyword .otherwise) (statement n) (s.lexemes joined) (AlikeStatement s)
  | s, h, 0, hn => by
    obtain ⟨l, ls, hls, _⟩ := exists_statement_lexemes_cons joined s
    rw [hls] at hn
    cases hn
  | .declare _, h, n + 1, _ => accepts_declare h joined
  | .assign .., h, n + 1, _ => accepts_assignment h.2 joined
  | .ret .., h, n + 1, _ => accepts_return h joined
  | .ifThen _ _ (.mk _ ss), h, n + 1, hn => by
    apply accepts_ifThen h.1
    intro s hs
    have hlength := (length_lexemesAll joined ss).2 s hs
    rw [Statement.lexemes, Block.lexemes] at hn
    exact accepts_statement_all joined h.2.2 s hs n (by simp at hn; omega)
  | .ifElse span condition (.mk first ss) (.mk second ss'), h, n + 1, hn => by
    have hlength := length_ifElse joined span first second condition ss ss'
    apply accepts_ifElse h.1
    · intro s hs
      have := (length_lexemesAll joined ss).2 s hs
      exact accepts_statement_all joined h.2.1.2 s hs n (by omega)
    · intro s hs
      have := (length_lexemesAll joined ss').2 s hs
      exact accepts_statement_all joined h.2.2.2 s hs n (by omega)
  | .expr .., h, n + 1, _ => accepts_evaluation h joined

theorem accepts_statement_all (joined : Bool) : ∀ {ss : List Step}, Statement.WritableAll ss →
    ∀ s ∈ ss, ∀ n, (s.lexemes joined).length ≤ n →
      Accepts (· ≠ .keyword .otherwise) (statement n) (s.lexemes joined) (AlikeStatement s)
  | [], _ => by simp
  | _ :: _, h =>
    List.forall_mem_cons.2
      ⟨fun _ hn => accepts_statement joined h.1 hn, accepts_statement_all joined h.2⟩

end

end Parse

end Cinder
