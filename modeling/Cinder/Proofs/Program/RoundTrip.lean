import Cinder.Proofs.Program.Statements

/-!
# Parsing what is written

The tokens of a definition are read as the definition, and so the text of a program is parsed as
the program, up to the places in the text.
-/

namespace Cinder

/-! ## Programs without places -/

section

variable {σ τ : Type}

def Parameter.unplaced (parameter : Parameter σ) : Parameter σ :=
  ⟨.nowhere, parameter.name.unplaced, parameter.ty.unplaced, parameter.symbol⟩

def Definition.unplaced (function : Definition σ τ) : Definition σ τ :=
  ⟨.nowhere, function.name.unplaced, function.parameters.map Parameter.unplaced,
    function.returnType.map TypeRef.unplaced, function.body.unplaced, function.symbol⟩

def Program.unplaced (program : Program σ τ) : Program σ τ :=
  ⟨program.functions.map Definition.unplaced⟩

end

namespace Parse

/-! ## Definitions -/

theorem accepts_parameter {F : TokenKind → Prop} (parameter : Parameter Unit) :
    Accepts F Parse.parameter parameter.lexemes
      fun found => found.unplaced = parameter.unplaced := by
  apply Accepts.identifier
  intro name hname
  apply Accepts.typeRef
  intro ty hty
  apply Accepts.pure
  rw [Parameter.unplaced, Parameter.unplaced, unplaced_ident hname, TypeRef.unplaced,
    TypeRef.unplaced, hty]

theorem accepts_definition {F : TokenKind → Prop} {function : Definition Unit Unit}
    (h : function.Writable) (joined : Bool) :
    Accepts F definition (function.lexemes joined)
      fun found => found.unplaced = function.unplaced := by
  obtain ⟨span, name, parameters, returnType, ⟨inner, ss⟩, ⟨⟩⟩ := function
  rw [Definition.lexemes, List.append_assoc, List.append_assoc, List.cons_append]
  apply Accepts.expect
  intro start _
  apply Accepts.identifier
  intro found hname
  apply Accepts.expect
  intro _ _
  apply (accepts_parenthesized (F := fun _ => True) (G := fun _ => True) trivial trivial
    (S := fun parameter found => found.unplaced = parameter.unplaced) ?_ ?_).bind
  · intro _ _
    exact trivial
  · intro result hresult
    apply (accepts_typeRef? returnType).bind
    · intro _ _
      exact (by decide : TokenKind.colon ≠ .type)
    · intro ty hty
      apply Accepts.expect
      intro _ _
      apply Accepts.get
      intro all hall
      have hstatements : AcceptsEach joined (statement (all.length + 1)) ss := by
        intro s hs
        have hlength := (length_lexemesAll joined ss).2 s hs
        rw [Block.lexemes] at hall
        exact accepts_statement_all joined h.body.2 s hs _ (by simp at hall; omega)
      apply (accepts_block (F := F) inner hstatements).map
      intro body hbody
      show Definition.mk _ _ _ _ _ _ = Definition.mk _ _ _ _ _ _
      have hparameters : parameters.map Parameter.unplaced = result.1.map Parameter.unplaced :=
        map_eq_map_of_forall₂ (hresult.imp fun _ _ h => h.symm)
      rw [unplaced_ident hname, hparameters, hty, hbody]
  · intro parameter _
    exact ⟨_, _, rfl, by simp⟩
  · intro parameter _
    exact accepts_parameter parameter

theorem Accepts.skipNewlines {G : TokenKind → Prop} {β : Type} {R : β → Prop} {ls : List Lexeme}
    {g : Unit → Parser β} (hkind : ∀ kind, G kind → firstKind ls kind ≠ .newline)
    (h : Accepts G (g ()) ls R) : Accepts G (Parse.skipNewlines >>= g) ls R := by
  intro tokens rest htokens hrest
  have hahead : kindAhead (tokens ++ rest) ≠ .newline := by
    rw [kindAhead_append, htokens]
    exact hkind _ hrest
  have hskip : Parse.skipNewlines (tokens ++ rest) = .ok ((), tokens ++ rest) := by
    show Except.ok ((), (tokens ++ rest).dropWhile fun token => token.kind == .newline) = _
    cases hall : tokens ++ rest with
    | nil => rfl
    | cons token all =>
      rw [hall] at hahead
      have hne : token.kind ≠ .newline := hahead
      rw [List.dropWhile_cons_of_neg (by simpa using hne)]
  rw [bind_eq hskip]
  exact h tokens rest htokens hrest

theorem accepts_definitions (joined : Bool) {functions : List (Definition Unit Unit)}
    (h : ∀ function ∈ functions, function.Writable) {n : Nat} (hn : functions.length ≤ n) :
    Accepts (· = .endOfFile) (definitions n) (functions.flatMap (Definition.lexemes joined))
      fun found => found.map Definition.unplaced = functions.map Definition.unplaced := by
  induction functions generalizing n with
  | nil =>
    cases n with
    | zero => exact .pure rfl
    | succ n =>
      apply Accepts.skipNewlines
      · rintro _ rfl
        show TokenKind.endOfFile ≠ _
        decide
      · apply Accepts.peek_nil
        intro token hkind
        rw [if_pos hkind]
        exact .pure rfl
  | cons function functions ih =>
    obtain ⟨n, rfl⟩ : ∃ m, n = m + 1 := Nat.exists_eq_add_of_le' (by simp at hn; omega)
    rw [List.forall_mem_cons] at h
    rw [List.flatMap_cons]
    apply Accepts.skipNewlines
    · intro _ _
      exact (by decide : TokenKind.keyword .fn ≠ .newline)
    · apply Accepts.peek_kind
      intro token hkind
      rw [if_neg (by rw [hkind]; decide)]
      apply (accepts_definition (F := fun _ => True) h.1 joined).bind
      · intro _ _
        exact trivial
      · intro first hfirst
        apply (ih h.2 (by simpa using hn)).map
        intro rest hrest
        rw [List.map_cons, List.map_cons, hfirst, hrest]

theorem length_le_lexemes (joined : Bool) (functions : List (Definition Unit Unit)) :
    functions.length ≤ (functions.flatMap (Definition.lexemes joined)).length := by
  induction functions with
  | nil => exact Nat.le_refl _
  | cons function functions ih =>
    rw [List.flatMap_cons, List.length_append, List.length_cons, Definition.lexemes]
    simp only [List.cons_append, List.length_cons]
    omega

end Parse

/-! ## Programs -/

/-- Parsing the text of a program gives the program back, up to places in the text. -/
theorem Program.exists_parse_source {program : Program.Parsed} (h : program.Writable)
    (joined : Bool) : ∃ parsed, Program.parse (program.source joined) = .ok parsed ∧
      parsed.unplaced = program.unplaced := by
  obtain ⟨tokens, htokens, hlexemes⟩ := exists_tokenize_source joined h
  obtain ⟨tokens, last, rfl, hprogram, hlast⟩ := List.map_eq_append_iff.1 hlexemes
  obtain ⟨eof, _, rfl, heof, hnil⟩ := List.map_eq_cons_iff.1 hlast
  obtain rfl := List.map_eq_nil_iff.1 hnil
  have hkind : eof.kind = .endOfFile := congrArg Lexeme.kind heof
  have hlength : program.functions.length ≤ (tokens ++ [eof]).length + 1 := by
    have := Parse.length_le_lexemes joined program.functions
    have hmap := congrArg List.length hprogram
    rw [List.length_map] at hmap
    rw [List.length_append, hmap]
    exact Nat.le_trans this (by unfold Program.lexemes; omega)
  obtain ⟨functions, hparse, hfunctions⟩ :=
    Parse.accepts_definitions joined h hlength tokens [eof] hprogram hkind
  refine ⟨⟨functions⟩, ?_, ?_⟩
  · rw [Program.parse, htokens, bind_ok]
    show (Parse.definitions _ (tokens ++ [eof]) >>= _) = _
    rw [hparse]
    rfl
  · rw [Program.unplaced, Program.unplaced, hfunctions]

/-- A program whose blocks end several at a time, with an alternative that is a conditional and
with operators that need parentheses and operators that do not. -/
def Program.folding : Program.Parsed :=
  let a : Parse.Tree := .ident .nowhere () ⟨"a", .nowhere⟩ ()
  let x : Parse.Tree := .ident .nowhere () ⟨"x", .nowhere⟩ ()
  let number (n : Nat) : Parse.Tree := .literal .nowhere () (.integer n)
  let operate (op : Operator) (lhs rhs : Parse.Tree) : Parse.Tree :=
    .binary .nowhere () op .nowhere lhs rhs
  let fold (arguments : List Parse.Tree) : Parse.Tree :=
    .call .nowhere () ⟨"fold", .nowhere⟩ () arguments
  ⟨[⟨.nowhere, ⟨"fold", .nowhere⟩, [⟨.nowhere, ⟨"a", .nowhere⟩, ⟨.s32, .nowhere⟩, ()⟩],
    some ⟨.s64, .nowhere⟩, .mk .nowhere [
      .declare ⟨.nowhere, ⟨"x", .nowhere⟩, none, some
        (operate .mul
          (.cast .nowhere () (operate .sub a (operate .sub (number 1) a)) ⟨.s64, .nowhere⟩)
          (.negate .nowhere () (operate .add (operate .add a x) a))), ()⟩,
      .ifElse .nowhere (operate .less a (number 0))
        (.mk .nowhere [.ifThen .nowhere (.literal .nowhere () (.boolean true))
          (.mk .nowhere [.expr .nowhere (fold [])])])
        (.mk .nowhere [.ifElse .nowhere (operate .less (fold [a, x]) x)
          (.mk .nowhere [.ret .nowhere (some x)])
          (.mk .nowhere [.assign .nowhere ⟨"x", .nowhere⟩ () (number 7)])])], ()⟩]⟩

theorem Program.exists_parse_source_folding :
    Program.folding.lines true =
      [⟨0, "fun fold(a @s32) @s64:"⟩,
        ⟨1, "var x = (a - (1 - a)) as @s64 * -(a + x + a)"⟩,
        ⟨1, "if a < 0:"⟩,
        ⟨2, "if true:"⟩,
        ⟨3, "fold()"⟩,
        ⟨1, "else if fold(a, x) < x:"⟩,
        ⟨2, "return x"⟩,
        ⟨1, "else:"⟩,
        ⟨2, "x = 7"⟩] ∧
    ∃ parsed, Program.parse (Program.folding.source true) = .ok parsed ∧
      parsed.unplaced = Program.folding.unplaced := by
  have hfold : IsName "fold" := ⟨by decide, by decide, by decide⟩
  have ha : IsName "a" := ⟨by decide, by decide, by decide⟩
  have hx : IsName "x" := ⟨by decide, by decide, by decide⟩
  have hnumber : ∀ n < 10, n < UInt64.size := by
    intro n hn
    exact Nat.lt_trans hn (by decide)
  have hwritable : Program.folding.Writable := by
    intro function hfunction
    rw [List.mem_singleton.1 hfunction]
    refine ⟨hfold, ?_, by simp, ⟨hx, .inr rfl, ?_⟩, ⟨⟨ha, hnumber 0 (by decide)⟩, ?_, ?_⟩, trivial⟩
    · intro parameter hparameter
      rw [List.mem_singleton.1 hparameter]
      exact ha
    · intro value hvalue
      cases hvalue
      exact ⟨⟨ha, hnumber 1 (by decide), ha⟩, ⟨ha, hx⟩, ha⟩
    · exact ⟨by simp, ⟨trivial, by simp, ⟨hfold, trivial⟩, trivial⟩, trivial⟩
    · refine ⟨by simp, ⟨⟨⟨hfold, ha, hx, trivial⟩, hx⟩, ⟨by simp, ?_, trivial⟩, by simp,
        ⟨hx, hnumber 7 (by decide)⟩, trivial⟩, trivial⟩
      intro value hvalue
      cases hvalue
      exact hx
  exact ⟨by rfl, Program.exists_parse_source hwritable true⟩

end Cinder
