import Cinder.Proofs.Except
import Cinder.Proofs.Program.Writing

/-!
# Reading expressions

The parsers of expressions stand on the rungs of the ladder of operators, each of them on top of
the next.  Given the tokens of an expression, the parser of a rung that the expression may stand
on gives the expression back, up to the places in the text, and stops in front of the first token
that does not belong to it.
-/

namespace Cinder

/-! ## Trees without places -/

section

variable {σ τ : Type}

def Span.nowhere : Span :=
  ⟨0, 0⟩

def Ident.unplaced (name : Ident) : Ident :=
  ⟨name.name, .nowhere⟩

def TypeRef.unplaced (ty : TypeRef) : TypeRef :=
  ⟨ty.ty, .nowhere⟩

mutual

def Expr.unplaced : Expr σ τ → Expr σ τ
  | .literal _ ty value => .literal .nowhere ty value
  | .ident _ ty name symbol => .ident .nowhere ty name.unplaced symbol
  | .call _ ty callee symbol arguments =>
    .call .nowhere ty callee.unplaced symbol (Expr.unplacedAll arguments)
  | .binary _ ty op _ lhs rhs => .binary .nowhere ty op .nowhere lhs.unplaced rhs.unplaced
  | .negate _ ty operand => .negate .nowhere ty operand.unplaced
  | .cast _ ty operand target => .cast .nowhere ty operand.unplaced target.unplaced

def Expr.unplacedAll : List (Expr σ τ) → List (Expr σ τ)
  | [] => []
  | expr :: rest => expr.unplaced :: Expr.unplacedAll rest

end

theorem Expr.unplacedAll_eq_map (es : List (Expr σ τ)) :
    Expr.unplacedAll es = es.map Expr.unplaced := by
  induction es with
  | nil => rfl
  | cons e es ih => rw [Expr.unplacedAll, ih, List.map_cons]

theorem Expr.lexemesAll_eq_map (es : List (Expr σ τ)) :
    Expr.lexemesAll es = es.map (Expr.lexemes 0) := by
  induction es with
  | nil => rfl
  | cons e es ih => rw [Expr.lexemesAll, ih, List.map_cons]

theorem Expr.unplaced_withSpan (span : Span) (e : Expr σ τ) :
    (e.withSpan span).unplaced = e.unplaced := by
  cases e <;> rfl

end

namespace Parse

/-! ## Accepted tokens -/

section

variable {α β : Type}

def kindAhead (tokens : List Token) : TokenKind :=
  (tokens.headD nothing).kind

def firstKind (lexemes : List Lexeme) (follow : TokenKind) : TokenKind :=
  (lexemes.head?.map Lexeme.kind).getD follow

@[simp] theorem firstKind_nil (follow : TokenKind) : firstKind [] follow = follow :=
  rfl

@[simp] theorem firstKind_cons (lexeme : Lexeme) (lexemes : List Lexeme) (follow : TokenKind) :
    firstKind (lexeme :: lexemes) follow = lexeme.kind :=
  rfl

theorem kindAhead_append (tokens rest : List Token) :
    kindAhead (tokens ++ rest) = firstKind (tokens.map Token.lexeme) (kindAhead rest) := by
  cases tokens <;> rfl

/-- A parser that takes tokens off which say something given, if a token of a kind `F` follows
them. -/
def Accepts (F : TokenKind → Prop) (p : Parser α) (lexemes : List Lexeme) (Q : α → Prop) : Prop :=
  ∀ tokens rest : List Token, tokens.map Token.lexeme = lexemes → F (kindAhead rest) →
    ∃ a, p (tokens ++ rest) = .ok (a, rest) ∧ Q a

variable {F G : TokenKind → Prop} {Q : α → Prop} {R : β → Prop} {ls ls' : List Lexeme}

theorem bind_eq {p : Parser α} {g : α → Parser β} {tokens rest : List Token} {a : α}
    (h : p tokens = .ok (a, rest)) : (p >>= g) tokens = g a rest := by
  show (p tokens >>= fun result => g result.1 result.2) = _
  rw [h]
  rfl

variable {token : Token}

theorem expect_cons {kind : TokenKind} (expected : String) (h : token.kind = kind)
    (rest : List Token) : expect kind expected (token :: rest) = .ok (token, rest) := by
  rw [expect, bind_eq (show peek (token :: rest) = .ok (token, token :: rest) from rfl), if_pos h]
  rfl

theorem text_of_lexeme {kind : TokenKind} {text : String} (h : token.lexeme = ⟨kind, text⟩)
    (hkind : kind.hasText = true) : token.text = text := by
  obtain rfl : token.kind = kind := congrArg Lexeme.kind h
  have htext := congrArg Lexeme.text h
  rw [Token.lexeme, if_pos hkind] at htext
  exact htext

theorem typeRef_cons {ty : Ty} (h : token.lexeme = ⟨.type, ty.display⟩) (rest : List Token) :
    typeRef (token :: rest) = .ok (⟨ty, token.span⟩, rest) := by
  have htail : ty.display.toList.tail = ty.name.toList := by simp [Ty.display]
  rw [typeRef, bind_eq (expect_cons _ (congrArg Lexeme.kind h) rest), text_of_lexeme h rfl, htail,
    String.ofList_toList, Ty.ofName?_name]
  rfl

namespace Accepts

theorem pure {a : α} (h : Q a) : Accepts F (Pure.pure a) [] Q := by
  intro tokens rest htokens _
  rw [List.map_eq_nil_iff.1 htokens]
  exact ⟨a, rfl, h⟩

variable {p : Parser α} {l : Lexeme} {g : Token → Parser β}

theorem bind {g : α → Parser β} (hp : Accepts F p ls Q)
    (hfollow : ∀ kind, G kind → F (firstKind ls' kind)) (hg : ∀ a, Q a → Accepts G (g a) ls' R) :
    Accepts G (p >>= g) (ls ++ ls') R := by
  intro tokens rest htokens hrest
  obtain ⟨tokens, tokens', rfl, rfl, rfl⟩ := List.map_eq_append_iff.1 htokens
  have hahead : F (kindAhead (tokens' ++ rest)) := by
    rw [kindAhead_append]
    exact hfollow _ hrest
  obtain ⟨a, hparse, ha⟩ := hp tokens (tokens' ++ rest) rfl hahead
  obtain ⟨b, hparse', hb⟩ := hg a ha tokens' rest rfl hrest
  refine ⟨b, ?_, hb⟩
  rw [List.append_assoc, bind_eq hparse, hparse']

theorem last {g : α → Parser β} (hp : Accepts F p ls Q) (hfollow : ∀ kind, G kind → F kind)
    (hg : ∀ a, Q a → Accepts G (g a) [] R) :
    Accepts G (p >>= g) ls R := by
  have h : Accepts G (p >>= g) (ls ++ []) R := hp.bind hfollow hg
  rwa [List.append_nil] at h

theorem map {f : α → β} (hp : Accepts F p ls Q) (hf : ∀ a, Q a → R (f a)) :
    Accepts F (p >>= fun a => Pure.pure (f a)) ls R :=
  hp.last (fun _ h => h) fun a ha => .pure (hf a ha)

theorem mono {Q' : α → Prop} (h : Accepts F p ls Q) (hF : ∀ kind, G kind → F kind)
    (hQ : ∀ a, Q a → Q' a) : Accepts G p ls Q' := by
  intro tokens rest htokens hrest
  obtain ⟨a, hparse, ha⟩ := h tokens rest htokens (hF _ hrest)
  exact ⟨a, hparse, hQ a ha⟩

theorem peek (h : ∀ token : Token, token.lexeme = l → Accepts G (g token) (l :: ls) R) :
    Accepts G (Parse.peek >>= g) (l :: ls) R := by
  intro tokens rest htokens hrest
  obtain ⟨token, tokens', rfl, hlexeme, rfl⟩ := List.map_eq_cons_iff.1 htokens
  exact h token hlexeme _ rest htokens hrest

theorem peek_kind {kind : TokenKind} {text : String}
    (h : ∀ token : Token, token.kind = kind → Accepts G (g token) (⟨kind, text⟩ :: ls) R) :
    Accepts G (Parse.peek >>= g) (⟨kind, text⟩ :: ls) R := by
  apply peek
  intro token htoken
  exact h token (congrArg Lexeme.kind htoken)

theorem peek_nil (h : ∀ token : Token, G token.kind → Accepts G (g token) [] R) :
    Accepts G (Parse.peek >>= g) [] R := by
  intro tokens rest htokens hrest
  obtain rfl := List.map_eq_nil_iff.1 htokens
  exact h _ hrest [] rest rfl hrest

theorem peekSecond
    (h : ∀ token : Token, (∃ kind, G kind ∧ token.kind = firstKind ls kind) →
      Accepts G (g token) (l :: ls) R) : Accepts G (Parse.peekSecond >>= g) (l :: ls) R := by
  intro tokens rest htokens hrest
  rw [bind_eq (show Parse.peekSecond (tokens ++ rest) = .ok (_, tokens ++ rest) from rfl)]
  refine h _ ⟨_, hrest, ?_⟩ tokens rest htokens hrest
  obtain ⟨token, tokens, rfl, rfl, rfl⟩ := List.map_eq_cons_iff.1 htokens
  rw [← kindAhead_append]
  rfl

theorem get {g : List Token → Parser β}
    (h : ∀ all : List Token, ls.length ≤ all.length → Accepts G (g all) ls R) :
    Accepts G (MonadState.get >>= g) ls R := by
  intro tokens rest htokens hrest
  have hget : (MonadState.get : Parser _) (tokens ++ rest) = .ok (tokens ++ rest, tokens ++ rest) :=
    rfl
  rw [bind_eq hget]
  apply h _ _ tokens rest htokens hrest
  rw [← htokens, List.length_map, List.length_append]
  exact Nat.le_add_right _ _

theorem advance {g : Unit → Parser β} (h : Accepts G (g ()) ls R) :
    Accepts G (Parse.advance >>= g) (l :: ls) R := by
  intro tokens rest htokens hrest
  obtain ⟨token, tokens, rfl, rfl, rfl⟩ := List.map_eq_cons_iff.1 htokens
  exact h tokens rest rfl hrest

theorem expect {kind : TokenKind} {text expected : String}
    (h : ∀ token : Token, token.lexeme = ⟨kind, text⟩ → Accepts G (g token) ls R) :
    Accepts G (Parse.expect kind expected >>= g) (⟨kind, text⟩ :: ls) R := by
  intro tokens rest htokens hrest
  obtain ⟨token, tokens, rfl, hlexeme, rfl⟩ := List.map_eq_cons_iff.1 htokens
  rw [List.cons_append, bind_eq (expect_cons expected (congrArg Lexeme.kind hlexeme) _)]
  exact h token hlexeme tokens rest rfl hrest

theorem identifier {name : String} {g : Ident → Parser β}
    (h : ∀ found : Ident, found.name = name → Accepts G (g found) ls R) :
    Accepts G (Parse.identifier >>= g) (⟨.identifier, name⟩ :: ls) R := by
  rw [Parse.identifier, bind_assoc]
  apply expect
  intro token hlexeme
  rw [pure_bind]
  exact h _ (text_of_lexeme hlexeme rfl)

theorem typeRef {ty : Ty} {g : TypeRef → Parser β}
    (h : ∀ found : TypeRef, found.ty = ty → Accepts G (g found) ls R) :
    Accepts G (Parse.typeRef >>= g) (⟨.type, ty.display⟩ :: ls) R := by
  intro tokens rest htokens hrest
  obtain ⟨token, tokens, rfl, hlexeme, rfl⟩ := List.map_eq_cons_iff.1 htokens
  rw [List.cons_append, bind_eq (typeRef_cons hlexeme _)]
  exact h _ rfl tokens rest rfl hrest

end Accepts

/-! ## Lists -/

theorem length_intercalate_comma (lss : List (List Lexeme)) :
    lss.length ≤ ([⟨.comma, ""⟩].intercalate lss).length + 1 ∧
      ∀ ls ∈ lss, ls.length ≤ ([⟨.comma, ""⟩].intercalate lss).length := by
  induction lss with
  | nil => simp
  | cons ls lss ih =>
    cases lss with
    | nil => simp
    | cons ls' lss =>
      rw [List.intercalate_cons_cons]
      simp only [List.length_append, List.length_cons, List.length_nil,
        List.forall_mem_cons] at ih ⊢
      obtain ⟨hlength, hfirst, hrest⟩ := ih
      refine ⟨by omega, by omega, by omega, ?_⟩
      intro ls hls
      have := hrest ls hls
      omega

theorem accepts_commaSeparated {item : Parser β} {f : α → List Lexeme} {S : α → β → Prop}
    (hcomma : F .comma) (hclose : F .closeParen) {xs : List α} (hne : xs ≠ [])
    (h : ∀ x ∈ xs, Accepts F item (f x) (S x)) {n : Nat} (hn : xs.length ≤ n + 1) :
    Accepts (· = .closeParen) (commaSeparated item n)
      ([⟨.comma, ""⟩].intercalate (xs.map f)) (List.Forall₂ S xs) := by
  induction xs generalizing n with
  | nil => exact absurd rfl hne
  | cons x xs ih =>
    rw [List.forall_mem_cons] at h
    cases xs with
    | nil =>
      have hitem : Accepts (· = .closeParen) item (f x) (S x) :=
        h.1.mono (by rintro _ rfl; exact hclose) fun _ h => h
      rw [List.map_singleton, List.intercalate_singleton]
      cases n with
      | zero => exact hitem.map fun a ha => .cons ha .nil
      | succ n =>
        apply hitem.last (fun _ h => h)
        intro first hfirst
        apply Accepts.peek_nil
        intro token hclose
        rw [if_neg (by rw [hclose]; decide)]
        exact .pure (.cons hfirst .nil)
    | cons y xs =>
      obtain ⟨n, rfl⟩ : ∃ m, n = m + 1 := Nat.exists_eq_add_of_le' (by simp at hn; omega)
      rw [List.map_cons, List.map_cons, List.intercalate_cons_cons, List.append_assoc,
        ← List.map_cons]
      apply h.1.bind
      · intro _ _
        exact hcomma
      · intro first hfirst
        apply Accepts.peek_kind
        intro token hkind
        rw [if_pos hkind]
        apply Accepts.advance
        apply Accepts.map (ih (by simp) h.2 (by simpa using hn))
        intro rest hrest
        exact .cons hfirst hrest

theorem accepts_parenthesized {item : Parser β} {f : α → List Lexeme} {S : α → β → Prop}
    (hcomma : F .comma) (hclose : F .closeParen) {xs : List α}
    (hstart : ∀ x ∈ xs, ∃ l ls, f x = l :: ls ∧ l.kind ≠ .closeParen)
    (h : ∀ x ∈ xs, Accepts F item (f x) (S x)) :
    Accepts G (parenthesized item)
      ([⟨.comma, ""⟩].intercalate (xs.map f) ++ [⟨.closeParen, ""⟩])
      fun result => List.Forall₂ S xs result.1 := by
  have hend : ∀ items, List.Forall₂ S xs items → Accepts G
      (do return (items, ← expect .closeParen "`)` or `,`")) [⟨.closeParen, ""⟩]
      fun result => List.Forall₂ S xs result.1 := by
    intro items hitems
    apply Accepts.expect
    intro close _
    exact .pure hitems
  cases xs with
  | nil =>
    apply Accepts.peek_kind
    intro token hkind
    dsimp only
    rw [if_pos hkind]
    exact hend [] .nil
  | cons x xs =>
    obtain ⟨l, ls, hls, hl⟩ := hstart x List.mem_cons_self
    obtain ⟨ls', hall⟩ : ∃ ls', [⟨.comma, ""⟩].intercalate ((x :: xs).map f) = l :: ls' := by
      cases xs with
      | nil => exact ⟨ls, by rw [List.map_singleton, List.intercalate_singleton, hls]⟩
      | cons y xs =>
        rw [List.map_cons, List.map_cons, List.intercalate_cons_cons, hls]
        exact ⟨_, rfl⟩
    have hparse : Accepts G (do
        let items ← commaSeparated item (← get).length
        return (items, ← expect .closeParen "`)` or `,`"))
        ([⟨.comma, ""⟩].intercalate ((x :: xs).map f) ++ [⟨.closeParen, ""⟩])
        fun result => List.Forall₂ S (x :: xs) result.1 := by
      apply Accepts.get
      intro all hlength
      apply Accepts.bind (accepts_commaSeparated hcomma hclose (by simp) h ?_)
      · intro _ _
        rfl
      · exact hend
      · have := (length_intercalate_comma ((x :: xs).map f)).1
        rw [List.length_map] at this
        rw [List.length_append] at hlength
        omega
    rw [hall] at hparse ⊢
    apply Accepts.peek
    intro token htoken
    dsimp only
    rw [if_neg (by rw [← Token.lexeme_kind, htoken]; exact hl)]
    exact hparse

end

/-! ## Atoms -/

/-- The rung on which a token would continue an expression. -/
def rung? : TokenKind → Option Nat
  | .less | .greater => some 0
  | .plus | .minus => some 1
  | .star | .slash => some 2
  | .keyword .cast => some 3
  | .openParen => some 5
  | _ => none

/-- A token that does not continue an expression on a rung or on a higher one. -/
def Stops (rung : Nat) (kind : TokenKind) : Prop :=
  ∀ r ∈ rung? kind, r < rung

variable {kind : TokenKind} {F : TokenKind → Prop} {span : Span} {e : Tree} {rung : Nat}
  {rest : List Token}

theorem Stops.mono {r r' : Nat} (h : Stops r kind) (hle : r ≤ r') :
    Stops r' kind := by
  intro found hfound
  exact Nat.lt_of_lt_of_le (h found hfound) hle

theorem stops_of_rung?_eq_none (h : rung? kind = none) (rung : Nat) :
    Stops rung kind := by
  simp [Stops, h]

/-- The same tree at another place. -/
def Alike (e found : Tree) : Prop :=
  found.unplaced = e.unplaced

theorem digitsValue_toString (n : Nat) : digitsValue (toString n).toList = n := by
  rw [Nat.toString_eq_repr, Nat.toList_repr]
  exact Nat.ofDigitChars_ten_toDigits

theorem accepts_literal {expression : Parser Tree} {value : Literal} (h : value.Writable) :
    Accepts F (atom expression) [value.lexeme] (Alike (.literal span () value)) := by
  apply Accepts.peek
  intro token htoken
  cases value with
  | integer n =>
    have hkind : token.kind = .integer := congrArg Lexeme.kind htoken
    have hvalue : literal token = pure (.integer n) := by
      unfold literal
      rw [hkind]
      dsimp only
      rw [text_of_lexeme htoken rfl, digitsValue_toString, if_pos (show n < UInt64.size from h)]
    rw [hkind]
    apply Accepts.advance
    rw [hvalue, pure_bind]
    exact .pure rfl
  | boolean b =>
    have hkind : token.kind = .boolean := congrArg Lexeme.kind htoken
    have hvalue : literal token = pure (.boolean b) := by
      unfold literal
      rw [hkind]
      dsimp only
      rw [text_of_lexeme htoken rfl]
      cases b <;> rfl
    rw [hkind]
    apply Accepts.advance
    rw [hvalue, pure_bind]
    exact .pure rfl
  | float => exact absurd h id

theorem accepts_name {expression : Parser Tree} {name : Ident} :
    Accepts (Stops 5) (atom expression) [⟨.identifier, name.name⟩]
      (Alike (.ident span () name ())) := by
  apply Accepts.peek_kind
  intro token hkind
  rw [hkind]
  apply Accepts.peekSecond
  rintro second ⟨kind, hstops, hsecond⟩
  have hparen : second.kind ≠ .openParen := by
    rintro hparen
    rw [hparen] at hsecond
    rw [firstKind_nil] at hsecond
    rw [← hsecond] at hstops
    exact absurd (hstops 5 rfl) (Nat.lt_irrefl 5)
  rw [if_neg hparen]
  apply Accepts.identifier
  intro found hfound
  apply Accepts.pure
  show Expr.ident _ _ _ _ = Expr.ident _ _ _ _
  rw [Ident.unplaced, Ident.unplaced, hfound]

theorem accepts_call {expression : Parser Tree} {callee : Ident} {arguments : List Tree}
    (hstart : ∀ e ∈ arguments, ∃ l ls, e.lexemes 0 = l :: ls ∧ l.kind ≠ .closeParen)
    (h : ∀ e ∈ arguments, Accepts (Stops 0) expression (e.lexemes 0) (Alike e)) :
    Accepts F (atom expression)
      (⟨.identifier, callee.name⟩ :: Lexeme.listed (Expr.lexemesAll arguments))
      (Alike (.call span () callee () arguments)) := by
  apply Accepts.peek_kind
  intro token hkind
  rw [hkind]
  apply Accepts.peekSecond
  rintro second ⟨kind, _, hsecond⟩
  have hparen : second.kind = .openParen := hsecond
  rw [if_pos hparen]
  apply Accepts.identifier
  intro found hfound
  apply Accepts.expect
  intro _ _
  rw [Expr.lexemesAll_eq_map]
  apply Accepts.map (accepts_parenthesized (stops_of_rung?_eq_none rfl 0)
    (stops_of_rung?_eq_none rfl 0) hstart h)
  intro result hresult
  show Expr.call _ _ _ _ _ = Expr.call _ _ _ _ _
  have harguments : arguments.map Expr.unplaced = result.1.map Expr.unplaced :=
    map_eq_map_of_forall₂ (hresult.imp fun _ _ h => h.symm)
  rw [Ident.unplaced, Ident.unplaced, hfound, Expr.unplacedAll_eq_map, Expr.unplacedAll_eq_map,
    harguments]

theorem accepts_paren {expression : Parser Tree} {ls : List Lexeme}
    (h : Accepts (Stops 0) expression ls (Alike e)) :
    Accepts F (atom expression) (⟨.openParen, ""⟩ :: ls ++ [⟨.closeParen, ""⟩]) (Alike e) := by
  apply Accepts.peek_kind
  intro token hkind
  rw [hkind]
  apply Accepts.advance
  apply h.bind
  · intro _ _
    exact stops_of_rung?_eq_none rfl 0
  · intro inner hinner
    apply Accepts.expect
    intro close _
    apply Accepts.pure
    exact (Expr.unplaced_withSpan _ inner).trans hinner

/-! ## The ladder -/

/-- The parsers of the rungs, with at most `n` levels of parentheses. -/
def ladder (n : Nat) : Nat → Parser Tree
  | 0 => nested (n + 1)
  | 1 => level termOp? (level factorOp? (cast (nested n)))
  | 2 => level factorOp? (cast (nested n))
  | 3 => cast (nested n)
  | _ => unary (nested n)

def operatorOn : Nat → TokenKind → Option Operator
  | 0 => comparisonOp?
  | 1 => termOp?
  | 2 => factorOp?
  | _ => fun _ => none

def resume (n : Nat) : Nat → Nat → Tree → Parser Tree
  | 0 => chain (operatorOn 0) (ladder n 1)
  | 1 => chain (operatorOn 1) (ladder n 2)
  | 2 => chain (operatorOn 2) (ladder n 3)
  | 3 => casts
  | _ => fun _ e => pure e

theorem resume_eq_chain (n : Nat) (h : rung ≤ 2) :
    resume n rung = chain (operatorOn rung) (ladder n (rung + 1)) := by
  match rung, h with
  | 0, _ => rfl
  | 1, _ => rfl
  | 2, _ => rfl

/-- The parser of a rung reads an expression of the next rung and goes on behind it. -/
theorem ladder_eq (n : Nat) (h : rung ≤ 3) :
    ladder n rung = (do
      let e ← ladder n (rung + 1)
      resume n rung (← get).length e) := by
  match rung, h with
  | 0, _ => rfl
  | 1, _ => rfl
  | 2, _ => rfl
  | 3, _ => rfl

theorem rung?_of_operatorOn {op : Operator} (h : operatorOn rung kind = some op) :
    rung? kind = some rung := by
  match rung with
  | 0 => cases kind <;> cases h <;> rfl
  | 1 => cases kind <;> cases h <;> rfl
  | 2 => cases kind <;> cases h <;> rfl
  | _ + 3 => cases h

theorem operatorOn_of_stops (h : Stops rung kind) :
    operatorOn rung kind = none := by
  rw [Option.eq_none_iff_forall_ne_some]
  intro op hop
  exact absurd (h rung (rung?_of_operatorOn hop)) (Nat.lt_irrefl rung)

theorem operatorOn_rung (op : Operator) : operatorOn op.rung op.kind = some op := by
  cases op <;> rfl

theorem stops_operator (op : Operator) : Stops (op.rung + 1) op.kind := by
  have hrung : rung? op.kind = some op.rung := rung?_of_operatorOn (operatorOn_rung op)
  intro r hr
  rw [hrung] at hr
  cases hr
  exact Nat.lt_succ_self _

theorem rung_le (op : Operator) : op.rung ≤ 2 := by
  cases op <;> decide

theorem chain_of_none {op? : TokenKind → Option Operator} {operand : Parser Tree}
    (h : op? (kindAhead rest) = none) (m : Nat) (e : Tree) :
    chain op? operand m e rest = .ok (e, rest) := by
  cases m with
  | zero => rfl
  | succ m =>
    rw [chain, bind_eq (show peek rest = .ok (_, rest) from rfl)]
    unfold kindAhead at h
    rw [h]
    rfl

theorem casts_of_ne (h : kindAhead rest ≠ .keyword .cast) (m : Nat) (e : Tree) :
    casts m e rest = .ok (e, rest) := by
  cases m with
  | zero => rfl
  | succ m =>
    rw [casts, bind_eq (show peek rest = .ok (_, rest) from rfl)]
    unfold kindAhead at h
    rw [if_neg h]
    rfl

/-- A rung is left in front of a token that does not continue the expression. -/
theorem resume_of_stops {n : Nat} (h : Stops rung (kindAhead rest)) (m : Nat) (e : Tree) :
    resume n rung m e rest = .ok (e, rest) := by
  by_cases hchain : rung ≤ 2
  · rw [resume_eq_chain n hchain]
    exact chain_of_none (operatorOn_of_stops h) m e
  · match rung, hchain with
    | 3, _ =>
      apply casts_of_ne
      intro hcast
      rw [hcast] at h
      exact absurd (h 3 rfl) (Nat.lt_irrefl 3)
    | _ + 4, _ => rfl

/-- Given the tokens of an expression, the parser of a rung gets to the point where it has read
the expression and goes on behind it. -/
def Reaches (n rung : Nat) (lexemes : List Lexeme) (e : Tree) : Prop :=
  ∀ tokens rest : List Token, tokens.map Token.lexeme = lexemes →
    Stops (rung + 1) (kindAhead rest) → ∃ found m, Alike e found ∧ rest.length ≤ m ∧
      ladder n rung (tokens ++ rest) = resume n rung m found rest

namespace Reaches

variable {n rung : Nat} {ls ls' : List Lexeme} {e : Tree}

theorem accepts (h : Reaches n rung ls e) :
    Accepts (Stops rung) (ladder n rung) ls (Alike e) := by
  intro tokens rest htokens hrest
  obtain ⟨found, m, hfound, _, hparse⟩ := h tokens rest htokens (hrest.mono (Nat.le_succ _))
  exact ⟨found, hparse.trans (resume_of_stops hrest m found), hfound⟩

theorem step (h : Reaches n (rung + 1) ls e) (hrung : rung ≤ 3) : Reaches n rung ls e := by
  intro tokens rest htokens hrest
  obtain ⟨found, hparse, hfound⟩ := h.accepts tokens rest htokens hrest
  refine ⟨found, rest.length, hfound, Nat.le_refl _, ?_⟩
  rw [ladder_eq n hrung, bind_eq hparse]
  rfl

theorem descend {high : Nat} (h : Reaches n high ls e) (hle : rung ≤ high) (hhigh : high ≤ 4) :
    Reaches n rung ls e := by
  induction hle with
  | refl => exact h
  | step hle ih => exact ih (h.step (by omega)) (by omega)

theorem of_atom {l : Lexeme} (h : Accepts (Stops 5) (atom (nested n)) (l :: ls) (Alike e))
    (hl : l.kind ≠ .minus) : Reaches n 4 (l :: ls) e := by
  intro tokens rest htokens hrest
  obtain ⟨found, hparse, hfound⟩ := h tokens rest htokens hrest
  refine ⟨found, rest.length, hfound, Nat.le_refl _, ?_⟩
  obtain ⟨token, tokens, rfl, rfl, rfl⟩ := List.map_eq_cons_iff.1 htokens
  show unary (nested n) (token :: (tokens ++ rest)) = _
  rw [unary, if_neg (by simpa using hl)]
  exact hparse

theorem negate {span : Span} {operand : Tree} (h : Reaches n 4 ls operand) :
    Reaches n 4 (⟨.minus, ""⟩ :: ls) (.negate span () operand) := by
  intro tokens rest htokens hrest
  obtain ⟨token, tokens, rfl, hlexeme, rfl⟩ := List.map_eq_cons_iff.1 htokens
  have hkind : token.kind = .minus := congrArg Lexeme.kind hlexeme
  obtain ⟨found, m, hfound, hm, hparse⟩ := h tokens rest rfl hrest
  refine ⟨.negate (token.span.through found.span) () found, m, ?_, hm, ?_⟩
  · show Expr.negate _ _ _ = Expr.negate _ _ _
    rw [hfound]
  · show unary (nested n) (token :: (tokens ++ rest)) = _
    rw [unary, if_pos hkind]
    have hparse : unary (nested n) (tokens ++ rest) = .ok (found, rest) := hparse
    rw [hparse]
    rfl

theorem cast {span : Span} {operand : Tree} {target : TypeRef} (h : Reaches n 3 ls operand) :
    Reaches n 3 (ls ++ [⟨.keyword .cast, ""⟩, ⟨.type, target.ty.display⟩])
      (.cast span () operand target) := by
  intro tokens rest htokens hrest
  obtain ⟨tokens, tokens', rfl, rfl, hcast⟩ := List.map_eq_append_iff.1 htokens
  obtain ⟨token, tokens', rfl, hlexeme, hty⟩ := List.map_eq_cons_iff.1 hcast
  obtain ⟨second, tokens', rfl, hsecond, hnil⟩ := List.map_eq_cons_iff.1 hty
  obtain rfl := List.map_eq_nil_iff.1 hnil
  have hkind : token.kind = .keyword .cast := congrArg Lexeme.kind hlexeme
  have hstops : Stops 4 (kindAhead (token :: second :: rest)) := by
    show Stops 4 token.kind
    rw [hkind]
    intro r hr
    cases hr
    decide
  obtain ⟨found, m, hfound, hm, hparse⟩ := h tokens (token :: second :: rest) rfl hstops
  obtain ⟨m, rfl⟩ : ∃ k, m = k + 1 := Nat.exists_eq_add_of_le' (by simp at hm; omega)
  refine ⟨.cast (found.span.through second.span) () found ⟨target.ty, second.span⟩, m, ?_, ?_, ?_⟩
  · show Expr.cast _ _ _ _ = Expr.cast _ _ _ _
    rw [hfound]
    rfl
  · simp at hm
    omega
  · have hcasts : ladder n 3 (tokens ++ (token :: second :: rest)) =
        casts (m + 1) found (token :: second :: rest) := hparse
    rw [List.append_assoc, List.cons_append, List.cons_append, List.nil_append, hcasts, casts,
      bind_eq (show peek (token :: second :: rest) = .ok (token, _) from rfl), if_pos hkind,
      bind_eq (show advance (token :: second :: rest) = .ok ((), second :: rest) from rfl),
      bind_eq (typeRef_cons hsecond rest)]
    rfl

theorem binary {span opSpan : Span} {op : Operator} {lhs rhs : Tree}
    (hlhs : Reaches n op.rung ls lhs)
    (hrhs : Accepts (Stops (op.rung + 1)) (ladder n (op.rung + 1)) ls' (Alike rhs)) :
    Reaches n op.rung (ls ++ ⟨op.kind, ""⟩ :: ls') (.binary span () op opSpan lhs rhs) := by
  intro tokens rest htokens hrest
  obtain ⟨tokens, tokens', rfl, rfl, hop⟩ := List.map_eq_append_iff.1 htokens
  obtain ⟨token, tokens', rfl, hlexeme, rfl⟩ := List.map_eq_cons_iff.1 hop
  have hkind : token.kind = op.kind := congrArg Lexeme.kind hlexeme
  have hstops : Stops (op.rung + 1) (kindAhead (token :: (tokens' ++ rest))) := by
    show Stops (op.rung + 1) token.kind
    rw [hkind]
    exact stops_operator op
  obtain ⟨left, m, hleft, hm, hparse⟩ := hlhs tokens (token :: (tokens' ++ rest)) rfl hstops
  obtain ⟨right, hparse', hright⟩ := hrhs tokens' rest rfl hrest
  obtain ⟨m, rfl⟩ : ∃ k, m = k + 1 := Nat.exists_eq_add_of_le' (by simp at hm; omega)
  refine ⟨.binary (left.span.through right.span) () op token.span left right, m, ?_, ?_, ?_⟩
  · show Expr.binary _ _ _ _ _ _ = Expr.binary _ _ _ _ _ _
    rw [hleft, hright]
  · simp at hm
    omega
  · rw [List.append_assoc, List.cons_append, hparse, resume_eq_chain n (rung_le op), chain,
      bind_eq (show peek (token :: (tokens' ++ rest)) = .ok (token, _) from rfl), hkind,
      operatorOn_rung]
    dsimp only
    rw [bind_eq (show advance (token :: (tokens' ++ rest)) = .ok ((), tokens' ++ rest) from rfl),
      bind_eq hparse']

theorem paren (h : Reaches n 0 ls e) :
    Reaches (n + 1) 4 (⟨.openParen, ""⟩ :: ls ++ [⟨.closeParen, ""⟩]) e :=
  of_atom (accepts_paren h.accepts) (by simp)

end Reaches

def opens : TokenKind → Bool
  | .identifier | .integer | .boolean | .float | .openParen | .minus => true
  | _ => false

theorem exists_lexemes_cons : ∀ (e : Tree) (rung : Nat),
    ∃ l ls, e.lexemes rung = l :: ls ∧ opens l.kind = true
  | .literal _ _ value, _ => ⟨value.lexeme, [], rfl, by cases value <;> rfl⟩
  | .ident .., _ => ⟨_, _, rfl, rfl⟩
  | .call .., _ => ⟨_, _, rfl, rfl⟩
  | .binary _ _ op _ lhs rhs, rung => by
    obtain ⟨l, ls, hlhs, hl⟩ := exists_lexemes_cons lhs op.rung
    rw [Expr.lexemes, Lexeme.enclosedIf]
    split
    · exact ⟨_, _, rfl, rfl⟩
    · rw [hlhs]
      exact ⟨l, _, rfl, hl⟩
  | .negate .., _ => ⟨_, _, rfl, rfl⟩
  | .cast _ _ operand target, rung => by
    obtain ⟨l, ls, hoperand, hl⟩ := exists_lexemes_cons operand 3
    rw [Expr.lexemes, Lexeme.enclosedIf]
    split
    · exact ⟨_, _, rfl, rfl⟩
    · rw [hoperand]
      exact ⟨l, _, rfl, hl⟩

/-- Both ways of writing an operator: without parentheses on its rung and lower ones, and with
parentheses higher up. -/
theorem reaches_enclosedIf {own n : Nat} {ls : List Lexeme} (hown : own ≤ 4) (hrung : rung ≤ 4)
    (hn : (Lexeme.enclosedIf (own < rung) ls).length ≤ n)
    (h : ∀ m, ls.length ≤ m → Reaches m own ls e) :
    Reaches n rung (Lexeme.enclosedIf (own < rung) ls) e := by
  by_cases hlow : own < rung
  · rw [Lexeme.enclosedIf, if_pos (by simpa using hlow)] at hn ⊢
    obtain ⟨m, rfl⟩ : ∃ m, n = m + 1 := Nat.exists_eq_add_of_le' (by simp at hn; omega)
    have hinner : Reaches m 0 ls e :=
      (h m (by simp at hn; omega)).descend (Nat.zero_le _) hown
    exact hinner.paren.descend hrung (Nat.le_refl _)
  · rw [Lexeme.enclosedIf, if_neg (by simpa using hlow)] at hn ⊢
    exact (h n hn).descend (by omega) hown

mutual

/-- The tokens of an expression are read as the expression on every rung that it is written
for. -/
theorem reaches : ∀ {e : Tree}, e.Writable → ∀ {n rung : Nat}, rung ≤ 4 →
    (e.lexemes rung).length ≤ n → Reaches n rung (e.lexemes rung) e
  | .literal _ _ value, h, _, _, hrung, _ =>
    (Reaches.of_atom (accepts_literal h) (by cases value <;> simp [Literal.lexeme])).descend
      hrung (Nat.le_refl _)
  | .ident .., _, _, _, hrung, _ =>
    (Reaches.of_atom accepts_name (by simp)).descend hrung (Nat.le_refl _)
  | .call _ _ callee _ arguments, h, n, _, hrung, hn => by
    refine Reaches.descend ?_ hrung (Nat.le_refl 4)
    apply Reaches.of_atom (accepts_call ?_ ?_) (by simp)
    · intro e _
      obtain ⟨l, ls, hls, hl⟩ := exists_lexemes_cons e 0
      refine ⟨l, ls, hls, ?_⟩
      intro hclose
      rw [hclose] at hl
      cases hl
    · intro e he
      rw [Expr.lexemes, Expr.lexemesAll_eq_map, Lexeme.listed] at hn
      have hlength := (length_intercalate_comma (arguments.map (Expr.lexemes 0))).2
        (e.lexemes 0) (List.mem_map_of_mem he)
      obtain ⟨m, rfl⟩ : ∃ m, n = m + 1 := Nat.exists_eq_add_of_le' (by simp at hn; omega)
      exact (reaches_all h.2 e he m (by simp at hn; omega)).accepts
  | .binary _ _ op _ lhs rhs, h, _, _, hrung, hn => by
    rw [Expr.lexemes] at hn ⊢
    apply reaches_enclosedIf (Nat.le_trans (rung_le op) (by decide)) hrung hn
    intro m hm
    rw [List.length_append, List.length_cons] at hm
    have hop := rung_le op
    exact .binary (reaches h.1 (by omega) (by omega))
      (reaches h.2 (by omega) (by omega)).accepts
  | .negate _ _ operand, h, n, _, hrung, hn => by
    rw [Expr.lexemes, List.length_cons] at hn
    have hoperand : Reaches n 4 (operand.lexemes 4) operand :=
      reaches (e := operand) h (Nat.le_refl 4) (Nat.le_of_succ_le hn)
    exact hoperand.negate.descend hrung (Nat.le_refl _)
  | .cast _ _ operand target, h, _, _, hrung, hn => by
    rw [Expr.lexemes] at hn ⊢
    apply reaches_enclosedIf (by decide) hrung hn
    intro m hm
    rw [List.length_append] at hm
    exact .cast (reaches (e := operand) h (by decide) (by omega))

theorem reaches_all : ∀ {es : List Tree}, Expr.WritableAll es → ∀ e ∈ es, ∀ n,
    (e.lexemes 0).length ≤ n → Reaches n 0 (e.lexemes 0) e
  | [], _ => by simp
  | _ :: _, h =>
    List.forall_mem_cons.2 ⟨fun _ hn => reaches h.1 (Nat.zero_le _) hn, reaches_all h.2⟩

end

theorem accepts_expression (h : e.Writable) :
    Accepts (Stops 0) expression (e.lexemes 0) (Alike e) := by
  apply Accepts.get
  intro all hall
  exact (reaches h (Nat.zero_le _) hall).accepts

end Parse

end Cinder
