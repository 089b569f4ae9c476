import Cinder.Proofs.Typing.Checking
import Cinder.Proofs.Typing.Nodes

/-!
# Integers and their types

An integer of an accepted program is in the range of its type, with the minus sign before it
counted in if there is one.  The one exception is an integer below the least one of 64 bits
where nothing asks for a type: it gets the widest signed type all the same.
-/

namespace Cinder

section

variable {σ τ : Type} {P : Expr σ τ → Prop}

theorem Statement.Every.expressions {s : Statement σ τ} (h : s.Every P) :
    ∀ e ∈ s.expressions, P e := by
  cases s with
  | declare decl => exact fun e he => h e (Option.mem_toList.1 he)
  | assign span target symbol value => exact List.forall_mem_singleton.2 h
  | ret span value => exact fun e he => h e (Option.mem_toList.1 he)
  | ifThen span condition positive => exact List.forall_mem_singleton.2 h.1
  | ifElse span condition positive negative => exact List.forall_mem_singleton.2 h.1
  | expr span value => exact List.forall_mem_singleton.2 h

mutual

theorem Statement.Every.nodes : ∀ {s : Statement σ τ}, s.Every P → ∀ n ∈ s.nodes, n.Every P
  | .declare _, h => List.forall_mem_singleton.2 h
  | .assign .., h => List.forall_mem_singleton.2 h
  | .ret .., h => List.forall_mem_singleton.2 h
  | .ifThen .., h => List.forall_mem_cons.2 ⟨h, Block.Every.nodes h.2⟩
  | .ifElse .., h => List.forall_mem_cons.2
      ⟨h, List.forall_mem_append.2 ⟨Block.Every.nodes h.2.1, Block.Every.nodes h.2.2⟩⟩
  | .expr .., h => List.forall_mem_singleton.2 h

theorem Block.Every.nodes : ∀ {b : Block σ τ}, b.Every P → ∀ n ∈ b.nodes, n.Every P
  | .mk .., h => Statement.EveryAll.nodes h

theorem Statement.EveryAll.nodes : ∀ {ss : List (Statement σ τ)}, Statement.EveryAll P ss →
    ∀ n ∈ Statement.nodesAll ss, n.Every P
  | [], _ => List.forall_mem_nil _
  | _ :: _, h =>
    List.forall_mem_append.2 ⟨Statement.Every.nodes h.1, Statement.EveryAll.nodes h.2⟩

end

end

namespace Program

theorem sound_of_ofSource {text : String} {program : Program.Typed} {table : SymbolTable}
    (h : ofSource text = .ok (program, table)) :
    ∀ d ∈ program.functions, d.body.Every Expr.Sound := by
  intro d hd
  exact ((delivers_ofSource text).of_eq_ok h d hd).2

/-- An integer of an accepted program is in the range of its type, counting in a minus sign
directly before it, if and only if it does not fall below the least integer of 64 bits. -/
theorem exact_iff_not_underflows {text : String} {program : Program.Typed} {table : SymbolTable}
    (h : ofSource text = .ok (program, table)) :
    ∀ d ∈ program.functions, ∀ s ∈ d.body.nodes, ∀ e ∈ s.expressions, ∀ x ∈ e.numerals false,
      ∀ width signed, x.ty = some (.int width signed) →
        (x.Exact (.int width signed) ↔ ¬x.Underflows (.int width signed)) := by
  intro d hd s hs e he x hx width signed hty
  have hsound : e.Sound := ((sound_of_ofSource h d hd).nodes s hs).expressions e he
  constructor
  · exact Numeral.not_underflows_of_exact
  · exact (hsound x hx width signed hty).resolve_right

def negates (program : Program.Typed) (value : Nat) (ty : Ty) : Bool :=
  program.functions.any fun d => d.body.nodes.any fun s => s.expressions.any fun e =>
    (e.numerals false).any fun x => x.negated && x.value == value && x.ty == some ty

theorem negates_eq_true {program : Program.Typed} {value : Nat} {ty : Ty} :
    program.negates value ty = true ↔ ∃ d ∈ program.functions, ∃ s ∈ d.body.nodes,
      ∃ e ∈ s.expressions, ∃ x ∈ e.numerals false,
        x.negated = true ∧ x.value = value ∧ x.ty = some ty := by
  simp only [negates, List.any_eq_true, Bool.and_eq_true, beq_iff_eq, and_assoc]

/-- The least integer of 64 bits is written as a minus sign and an integer out of range. -/
theorem exact_least :
    ∃ program table d s e x,
      ofSource "fun main() @s64:\n    return -9223372036854775808\n" = .ok (program, table) ∧
      d ∈ program.functions ∧ s ∈ d.body.nodes ∧ e ∈ s.expressions ∧ x ∈ e.numerals false ∧
      x.value = 2 ^ 63 ∧ x.ty = some Ty.s64 ∧ x.Exact Ty.s64 := by
  generalize htext : "fun main() @s64:\n    return -9223372036854775808\n" = text
  have hrun : ((ofSource text).toOption.map fun r => r.1.negates (2 ^ 63) Ty.s64) = some true := by
    rw [← htext, ofSource, parse, tokenize_ofList]
    decide +kernel
  obtain ⟨⟨program, table⟩, hsource, hnegates⟩ := Option.map_eq_some_iff.1 hrun
  rw [toOption_eq_some] at hsource
  obtain ⟨d, hd, s, hs, e, he, x, hx, -, hvalue, hty⟩ := negates_eq_true.1 hnegates
  have hexact := exact_iff_not_underflows hsource d hd s hs e he x hx .w64 true hty
  refine ⟨program, table, d, s, e, x, hsource, hd, hs, he, hx, hvalue, hty, hexact.2 ?_⟩
  rintro ⟨-, -, hlarge⟩
  omega

/-- An initializer below the least integer of 64 bits is accepted with a type that does not
have it. -/
theorem exists_inexact :
    ∃ program table d s e x,
      ofSource "fun main():\n    var x = -9223372036854775809\n    return\n" =
        .ok (program, table) ∧
      d ∈ program.functions ∧ s ∈ d.body.nodes ∧ e ∈ s.expressions ∧ x ∈ e.numerals false ∧
      x.value = 2 ^ 63 + 1 ∧ x.ty = some Ty.s64 ∧ ¬x.Exact Ty.s64 := by
  generalize htext : "fun main():\n    var x = -9223372036854775809\n    return\n" = text
  have hrun : ((ofSource text).toOption.map fun r => r.1.negates (2 ^ 63 + 1) Ty.s64) =
      some true := by
    rw [← htext, ofSource, parse, tokenize_ofList]
    decide +kernel
  obtain ⟨⟨program, table⟩, hsource, hnegates⟩ := Option.map_eq_some_iff.1 hrun
  rw [toOption_eq_some] at hsource
  obtain ⟨d, hd, s, hs, e, he, x, hx, hnegated, hvalue, hty⟩ := negates_eq_true.1 hnegates
  have hunderflows : x.Underflows Ty.s64 := ⟨hnegated, rfl, by omega⟩
  exact ⟨program, table, d, s, e, x, hsource, hd, hs, he, hx, hvalue, hty,
    fun hexact => Numeral.not_underflows_of_exact hexact hunderflows⟩

end Program

end Cinder
