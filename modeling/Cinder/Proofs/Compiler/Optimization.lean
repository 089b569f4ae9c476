import Cinder.Proofs.Flow.Interpreter
import Cinder.Proofs.Flow.Translation
import Cinder.Compiler.Compile

/-!
# Optimization keeps the meaning of programs

What a function of an accepted program returns, and which calls it makes on the
way, stays the same under any passes.
-/

namespace Cinder

open Cinder.Flow

/-- Whatever passes are run over the flow graphs of an accepted program, they come
to an end, and every function that returns still returns the same value after the
same calls. -/
theorem Program.returns_optimize {text : String} {program : Program.Typed} {table : SymbolTable}
    {m : Module} (hsource : Program.ofSource text = .ok (program, table))
    (hlower : program.lower table = .ok m) (hfit : m.Addressable) (passes : List Pass) :
    ∃ o, m.optimize passes = .ok o ∧
      List.Forall₂ (fun f f' => f'.symbol = f.symbol ∧ ∀ init arguments events value,
          f.Returns (m.Runs init) init arguments events value →
            f'.Returns (o.result.Runs init) init arguments events value)
        m.functions o.result.functions := by
  obtain ⟨o, ho, -, -, hrefines⟩ :=
    (Program.wellFormed_of_lower hsource hlower hfit).exists_optimize passes
  refine ⟨o, ho, hrefines.imp fun f f' hf => ⟨hf.symbol, ?_⟩⟩
  intro init arguments events value hreturns
  exact (hf.returns hreturns).mono (Module.runs_of_refines hrefines init)

/-- A `main` that calls a function still gets three from it. -/
theorem Program.returns_optimize_call :
    ∃ program table m o f,
      Program.ofSource
        "fun inc(x @u8) @u8:\n    return x + 1\n\nfun main() @u8:\n    return inc(2)\n" =
          .ok (program, table) ∧
        program.lower table = .ok m ∧ m.Addressable ∧ m.optimize Pass.all = .ok o ∧
        f ∈ o.result.functions ∧ f.symbol = 2 ∧
        f.Returns (o.result.Runs fun _ => .bool false) (fun _ => .bool false) []
          [⟨0, [.ofInt .w8 false 2]⟩] (some (.ofInt .w8 false 3)) := by
  generalize htext :
    "fun inc(x @u8) @u8:\n    return x + 1\n\nfun main() @u8:\n    return inc(2)\n" = text
  have hrun : (Program.examine text fun _ m => m.run? (fun _ => .bool false) 12 2 2 []) =
      some (13, [⟨0, [.ofInt .w8 false 2]⟩], some (.ofInt .w8 false 3)) := by
    rw [← htext, Program.examine, Program.ofSource, Program.parse, tokenize_ofList]
    decide +kernel
  obtain ⟨program, table, m, hsource, -, hlower, hfit, hrun⟩ :=
    Program.exists_of_examine hrun (by decide)
  obtain ⟨o, ho, hall⟩ := Program.returns_optimize hsource hlower hfit Pass.all
  obtain ⟨f, hf, hreturns⟩ := Module.runsWithin_of_run? hrun
  obtain ⟨g, hg, hsymbol, hsame⟩ := forall₂_exists_left hall.flip (List.mem_of_find?_eq_some hf)
  refine ⟨program, table, m, o, g, hsource, hlower, hfit, ho, hg, ?_, hsame _ _ _ _ ?_⟩
  · rw [hsymbol]
    simpa using List.find?_some hf
  · exact hreturns.mono fun _ _ _ _ hrun => ⟨1, hrun⟩

end Cinder
