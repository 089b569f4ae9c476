import Cinder.Proofs.Flow.Parameters

/-!
# Called functions

Lowering adds variables to the symbol table and no functions.  So every function that
the table knows afterwards is one of the program, and has a flow graph.
-/

namespace Cinder

open Cinder.Flow

/-! ## Functions of programs -/

/-- Every number of the headings is that of a function or of a parameter. -/
theorem Signature.Numbered.exists_mem {signatures : List Signature} {next id : Nat}
    (h : Numbered next signatures) (hle : next ≤ id) (hlt : id < next + count signatures) :
    ∃ s ∈ signatures, s.symbol = id ∨ id ∈ s.parameters.map (·.symbol) := by
  induction signatures generalizing next with
  | nil => exact absurd hlt (Nat.not_lt.2 hle)
  | cons first rest ih =>
    obtain ⟨hsymbol, hparameters, hrest⟩ := h
    rw [count] at hlt
    by_cases hself : id = next
    · exact ⟨first, List.mem_cons_self, .inl (hsymbol.trans hself.symm)⟩
    · by_cases hfirst : id < next + 1 + first.parameters.length
      · refine ⟨first, List.mem_cons_self, .inr ?_⟩
        rw [hparameters, List.mem_range'_1]
        omega
      · obtain ⟨s, hs, h⟩ := ih hrest (by omega) (by omega)
        exact ⟨s, List.mem_cons_of_mem _ hs, h⟩

namespace Program

variable {program : Program.Typed} {table : SymbolTable} {m : Module}

/-- The functions that the table of a program knows are those of the program. -/
theorem exists_mem_of_get? (hb : program.Bound) (ht : program.WellTyped table)
    {id : SymbolId} {name : String} {parameters : List SymbolId} {returnType : Option Ty}
    (hget : table.get? id = some ⟨name, .function parameters returnType⟩) :
    ∃ d ∈ program.functions, d.symbol = id := by
  by_cases hlocal : Signature.count program.signatures ≤ id
  · obtain ⟨name', ty, hget'⟩ := ht.locals hlocal (SymbolTable.lt_size_of_get? hget)
    cases hget.symm.trans hget'
  · obtain ⟨s, hs, hid⟩ := hb.numbered.exists_mem (Nat.zero_le id) (by omega)
    obtain ⟨d, hd, rfl⟩ := List.mem_map.1 hs
    rcases hid with hid | hid
    · exact ⟨d, hd, hid⟩
    · obtain ⟨p, hp, rfl⟩ := List.mem_map.1 hid
      cases hget.symm.trans ((ht.headings d hd).parameters p hp)

end Program

/-- Every function that the symbols of a module know has a flow graph, which is called
by its name and has its parameters. -/
def Flow.Module.Closed (m : Module) : Prop :=
  ∀ {id parameters returnType}, m.symbols.function? id = some (parameters, returnType) →
    ∃ f ∈ m.functions, f.symbol = id ∧ f.name = m.symbols.nameOf id ∧
      f.parameters = parameters.map fun symbol => { symbol }

theorem Program.closed_of_lower {program : Program.Typed} {table : SymbolTable} {m : Module}
    (hb : program.Bound) (ht : program.WellTyped table) (h : program.lower table = .ok m) :
    m.Closed := by
  intro id parameters returnType hf
  obtain ⟨name, hf⟩ := SymbolTable.function?_eq_some.1 hf
  have hf := (keeps_of_lower h).added hf
  obtain ⟨d, hd, rfl⟩ := exists_mem_of_get? hb ht hf
  have hget := (ht.headings d hd).function
  cases hf.symm.trans hget
  obtain ⟨f, hmem, hheading⟩ := forall₂_exists_left (headings_of_lower hb ht h).flip hd
  simp only [Function.heading, Prod.mk.injEq] at hheading
  obtain ⟨hsymbol, hname, -, hparameters, -⟩ := hheading
  refine ⟨f, hmem, hsymbol, ?_, ?_⟩
  · rw [hname, SymbolTable.nameOf, (keeps_of_lower h).get hget]
    rfl
  · rw [hparameters, List.map_map]
    rfl

end Cinder
