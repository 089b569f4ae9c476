import Cinder.Proofs.Compiler.Order
import Cinder.Proofs.Flow.Lifetimes

/-!
# Single assignment

The functions of an accepted program share no temporary, and rewrites write nothing
new.  So at every point of optimization a temporary has one instruction that writes it,
and lives in the block of that instruction.
-/

namespace Cinder

open Cinder.Flow

/-- Rounds keep the functions of a module standard and their temporaries separate. -/
theorem Flow.Module.Standard.singleAssignment_of_underway {m m' : Module} (hm : m.Standard)
    (hseparate : m.functions.Pairwise (Function.Separate m.symbols)) (h : m.Underway m') :
    m'.SingleAssignment := by
  have hl : m.Linked := fun f hf => (hm f hf).wellFormed.linked
  obtain ⟨hsymbols, hrounds⟩ := hl.rounds_of_underway h
  apply Module.singleAssignment
  · intro g hg
    obtain ⟨f, hf, hfg⟩ := forall₂_exists_left hrounds hg
    rw [hsymbols]
    exact ((hm f hf).rounds hfg).1
  · rw [hsymbols]
    exact Function.separate_of_rounds hseparate hrounds

/-- At every point of any rounds over an accepted program, whatever passes they run:
every temporary is written by one instruction of the module at most, what reads it is
in the same block and behind, and no temporary is live at an end of a block. -/
theorem Program.singleAssignment_underway {text : String} {program : Program.Typed}
    {table : SymbolTable} (hsource : Program.ofSource text = .ok (program, table))
    (hfit : program.Addressable table) :
    ∃ m, program.lower table = .ok m ∧ ∀ m', m.Underway m' → m'.SingleAssignment := by
  obtain ⟨m, hlower, hm, hproper⟩ := Program.exists_lower hsource hfit
  have hstandard := Program.standard_of_lower hsource hlower hm hproper
  have hseparate := Program.separate_of_lower hsource hlower hm
  exact ⟨m, hlower, fun m' h => hstandard.singleAssignment_of_underway hseparate h⟩

def tripling : String :=
  "fun f(x @u8) @u8:\n    return x * (1 + 2)\n\nfun main() @u8:\n    return f(4) + f(5)\n"

theorem Program.singleAssignment_underway_tripling :
    ∃ program table m m' changes, Program.ofSource tripling = .ok (program, table) ∧
      program.Addressable table ∧ program.lower table = .ok m ∧
      m.round Pass.all = .ok (m', changes) ∧ changes.length = 2 ∧ m'.SingleAssignment := by
  have hrun : (Program.examine tripling fun _ m => (m.round Pass.all).toOption.map
      fun result => result.2.length) = some (18, 2) := by
    rw [Program.examine, Program.ofSource, Program.parse, tripling, tokenize_ofList]
    decide +kernel
  obtain ⟨program, table, m, hsource, hfit, hlower, -, hrun⟩ :=
    Program.exists_of_examine hrun (by decide)
  obtain ⟨⟨m', changes⟩, hround, hchanges⟩ := Option.map_eq_some_iff.1 hrun
  rw [toOption_eq_some] at hround
  obtain ⟨_, hlower', h⟩ := Program.singleAssignment_underway hsource hfit
  cases hlower.symm.trans hlower'
  exact ⟨program, table, m, m', changes, hsource, hfit, hlower, hround, hchanges,
    h m' ⟨m', .single ⟨_, _, hround⟩, .inl rfl⟩⟩

end Cinder
