import Cinder.Program.Parse
import Cinder.Proofs.Program.Resolution
import Cinder.Proofs.Program.ScopeStack

/-!
# Lexical scoping

Binding names succeeds on just those programs in which every name denotes what it is
used as, and then gives every occurrence the symbol of the declaration that it
denotes.
-/

namespace Cinder

section

variable {σ τ : Type}

/-! ## Symbols of declarations -/

mutual

/-- The symbols of the variables that a statement declares, in the order of the text. -/
def Statement.symbols : Statement σ τ → List σ
  | .declare decl => [decl.symbol]
  | .ifThen _ _ positive => positive.symbols
  | .ifElse _ _ positive negative => positive.symbols ++ negative.symbols
  | _ => []

def Block.symbols : Block σ τ → List σ
  | .mk _ statements => Statement.symbolsAll statements

def Statement.symbolsAll : List (Statement σ τ) → List σ
  | [] => []
  | statement :: rest => statement.symbols ++ Statement.symbolsAll rest

end

def Program.symbols (program : Program σ τ) : List σ :=
  (program.functions.flatMap fun d => d.symbol :: d.parameters.map (·.symbol)) ++
    program.functions.flatMap fun d => d.body.symbols

end

/-! ## Numbers of declarations -/

mutual

theorem Statement.symbols_of_bound {τ : Type} {scope : Scope} {next : Nat} :
    ∀ {statement : Statement SymbolId τ}, statement.Bound scope next →
      statement.symbols = List.range' next statement.declarations
  | .declare decl, h => congrArg (fun n => [n]) h.2
  | .assign .., _ => rfl
  | .ret .., _ => rfl
  | .ifThen .., h => Block.symbols_of_bound h.2
  | .ifElse .., h => by
    rw [Statement.symbols, Statement.declarations, Block.symbols_of_bound h.2.1,
      Block.symbols_of_bound h.2.2, List.range'_append_1]
  | .expr .., _ => rfl

theorem Block.symbols_of_bound {τ : Type} {scope : Scope} {next : Nat} :
    ∀ {block : Block SymbolId τ}, block.Bound scope next →
      block.symbols = List.range' next block.declarations
  | .mk .., h => Statement.symbolsAll_of_boundAll h

theorem Statement.symbolsAll_of_boundAll {τ : Type} {scope : Scope} {next : Nat} :
    ∀ {statements : List (Statement SymbolId τ)}, Statement.BoundAll scope next statements →
      Statement.symbolsAll statements = List.range' next (Statement.declarationsAll statements)
  | [], _ => rfl
  | statement :: rest, h => by
    rw [Statement.symbolsAll, Statement.declarationsAll, Statement.symbols_of_bound h.1,
      Statement.symbolsAll_of_boundAll h.2, List.range'_append_1]

end

theorem Definition.symbols_of_boundAll {τ : Type} {scope : Scope} {next : Nat}
    {definitions : List (Definition SymbolId τ)} (h : BoundAll scope next definitions) :
    (definitions.flatMap fun d => d.body.symbols) =
      List.range' next (declarationsAll definitions) := by
  induction definitions generalizing next with
  | nil => rfl
  | cons d rest ih =>
    rw [List.flatMap_cons, Block.symbols_of_bound h.1, ih h.2, List.range'_append_1]
    rfl

theorem Signature.symbols_of_numbered {next : Nat} {signatures : List Signature}
    (h : Numbered next signatures) :
    (signatures.flatMap fun s => s.symbol :: s.parameters.map (·.symbol)) =
      List.range' next (count signatures) := by
  induction signatures generalizing next with
  | nil => rfl
  | cons s rest ih =>
    obtain ⟨hsymbol, hparameters, hrest⟩ := h
    rw [List.flatMap_cons, ih hrest, hsymbol, hparameters, count, Nat.add_comm 1,
      Nat.add_assoc next, Nat.add_comm 1, ← List.range'_append_1, List.range'_succ]

theorem Program.Bound.nodup_symbols {τ : Type} {program : Program SymbolId τ}
    (h : program.Bound) : program.symbols.Nodup := by
  have hheadings : (program.functions.flatMap fun d => d.symbol :: d.parameters.map (·.symbol)) =
      List.range' 0 (Signature.count program.signatures) := by
    rw [← Signature.symbols_of_numbered h.numbered, signatures, List.flatMap_map]
    rfl
  have hlocals := Definition.symbols_of_boundAll h.bodies
  have hall : program.symbols = List.range' 0 (Signature.count program.signatures +
      Definition.declarationsAll program.functions) := by
    calc program.symbols
      _ = List.range' 0 (Signature.count program.signatures) ++
          List.range' (0 + Signature.count program.signatures)
            (Definition.declarationsAll program.functions) := by
        rw [symbols, hheadings, hlocals, Nat.zero_add]
      _ = _ := List.range'_append_1
  rw [hall]
  exact List.nodup_range'

/-! ## Programs -/

theorem Definition.BoundAll.denotes {τ : Type} {scope : Scope} {next : Nat}
    {definitions : List (Definition SymbolId τ)} (h : BoundAll scope next definitions) :
    ∀ d ∈ definitions, d.body.Scoped (scope.declareParameters d.parameters).find? := by
  induction definitions generalizing next with
  | nil => simp
  | cons d rest ih => exact List.forall_mem_cons.2 ⟨h.1.denotes, ih h.2⟩

namespace Program

/-- In a bound program, every name denotes the declaration that it carries the symbol of. -/
theorem Bound.lexical {τ : Type} {program : Program SymbolId τ} (h : program.Bound) :
    program.Lexical := by
  have henvironment : program.environment = (Signature.scope program.signatures).find? := by
    funext name
    rw [Signature.find?_scope_of_nodup h.names, signatures, List.find?_map, Option.map_map]
    rfl
  refine ⟨?_, fun d hd => h.parameterNames _ (List.mem_map_of_mem hd), fun d hd => ?_⟩
  · have hnames := h.names
    rwa [signatures, List.map_map] at hnames
  · rw [henvironment, ← Scope.find?_declareParameters]
    exact h.bodies.denotes d hd

/-- The names of a program can be bound if and only if functions have different names, so have
the parameters of each function, and every name denotes what it is used as.  Every occurrence
then has the symbol of the declaration that its name denotes there, and every declaration has
one of its own.  All other programs are rejected.  The declarations have to be few enough to be
told apart by 32 bits. -/
theorem lexical_bindNames (parsed : Program.Parsed) (hfit : parsed.declarations ≤ UInt32.size) :
    ((∃ result, parsed.bindNames = .ok result) ↔ parsed.Lexical) ∧
      (∀ program table, parsed.bindNames = .ok (program, table) →
        program.erase = parsed ∧ program.Lexical ∧ program.symbols.Nodup) ∧
      ∀ failure, parsed.bindNames = .error failure →
        ∃ diagnostic, failure = .rejected diagnostic := by
  have hresolves := parsed.resolves
  have hbinds : ∀ program table, parsed.bindNames = .ok (program, table) →
      program.erase = parsed ∧ program.Lexical ∧ program.symbols.Nodup := by
    intro program table h
    obtain ⟨⟨herase, hsize⟩, hbound⟩ := hresolves.of_eq_ok (bindNames_eq_ok.1 h)
    have hbound := (hbound (hsize ▸ hfit)).1
    exact ⟨herase, hbound.lexical, hbound.nodup_symbols⟩
  refine ⟨⟨?_, fun hlexical => ?_⟩, hbinds, fun failure h => ?_⟩
  · rintro ⟨⟨program, table⟩, h⟩
    obtain ⟨rfl, hlexical, -⟩ := hbinds program table h
    exact hlexical.erase
  · cases hrun : parsed.resolve with
    | ok result => exact ⟨result, bindNames_eq_ok.2 hrun⟩
    | error diagnostic => exact absurd ⟨hfit, hlexical⟩ (hresolves.of_error hrun).misnamed
  · rw [bindNames_eq] at h
    cases hrun : parsed.resolve <;> rw [hrun] at h <;> cases h
    exact ⟨_, rfl⟩

/-- A parameter, a variable and an inner variable that hide the function and each other. -/
def shadowing : String :=
  "fun f(f @u8) @u8:\n    var f = f\n" ++
    "    if f < 2:\n        var f = 3\n        return f\n    return f\n"

theorem lexical_bindNames_shadowing :
    ∃ parsed program table, parse shadowing = .ok parsed ∧ parsed.declarations ≤ UInt32.size ∧
      parsed.bindNames = .ok (program, table) ∧ parsed.Lexical ∧ program.erase = parsed ∧
      program.Lexical ∧ program.symbols = [0, 1, 2, 3] ∧ program.symbols.Nodup := by
  have hrun : ((parse shadowing).toOption.bind fun parsed =>
      parsed.bindNames.toOption.map fun result => (parsed.declarations, result.1.symbols)) =
      some (4, [0, 1, 2, 3]) := by
    delta shadowing
    rw [parse, ← String.ofList_append, tokenize_ofList]
    decide +kernel
  obtain ⟨parsed, hparse, hrun⟩ := Option.bind_eq_some_iff.1 hrun
  obtain ⟨⟨program, table⟩, hbind, hrun⟩ := Option.map_eq_some_iff.1 hrun
  simp only [Prod.mk.injEq] at hrun
  rw [toOption_eq_some] at hparse hbind
  have hfit : parsed.declarations ≤ UInt32.size := hrun.1 ▸ by decide
  obtain ⟨hiff, hbinds, -⟩ := lexical_bindNames parsed hfit
  obtain ⟨herase, hlexical, hnodup⟩ := hbinds program table hbind
  exact ⟨parsed, program, table, hparse, hfit, hbind, hiff.1 ⟨_, hbind⟩, herase, hlexical, hrun.2,
    hnodup⟩

end Program

end Cinder
