import Cinder.Proofs.Flow.Idle
import Cinder.Proofs.Flow.Translation

/-!
# Optimizing twice

The optimizer stops at a module that another round leaves as it is, whichever passes
it runs.  So the second of two runs with the same passes takes that one round and
gives the module back.
-/

namespace Cinder

open Cinder.Flow

/-- Optimizing what was optimized with the same passes takes one round and changes
nothing. -/
theorem Program.exists_optimize_twice {text : String} {program : Program.Typed}
    {table : SymbolTable} (hsource : Program.ofSource text = .ok (program, table))
    (hfit : program.Addressable table) :
    ∃ m, program.lower table = .ok m ∧ ∀ passes : List Pass, passes ≠ [] →
      ∃ o, m.optimize passes = .ok o ∧ o.result.optimize passes = .ok ⟨o.result, 1, []⟩ := by
  obtain ⟨m, hlower, hm, -⟩ := Program.exists_lower hsource hfit
  have hwell := Program.wellFormed_of_lower hsource hlower hm
  refine ⟨m, hlower, fun passes hne => ?_⟩
  obtain ⟨o, ho, -⟩ := hwell.exists_optimize passes
  have hquiet := (hwell.quiet_of_optimize hne ho).2
  exact ⟨o, ho, Module.optimize_of_quiet hne hquiet⟩

/-- Without pruning the passes take five rounds for this program, and then one. -/
theorem Program.exists_optimize_twice_if :
    ∃ program table m o,
      Program.ofSource "fun f() @u8:\n    if 1 < 2 + 3:\n        return 1\n    return 2\n" =
          .ok (program, table) ∧
        program.Addressable table ∧ program.lower table = .ok m ∧
        m.optimize [.branches, .propagation, .folding] = .ok o ∧ o.rounds = 5 ∧
        o.result.optimize [.branches, .propagation, .folding] = .ok ⟨o.result, 1, []⟩ := by
  generalize htext : "fun f() @u8:\n    if 1 < 2 + 3:\n        return 1\n    return 2\n" = text
  have hrun : (Program.examine text fun _ m => (m.optimize
      [.branches, .propagation, .folding]).toOption.map (·.rounds)) = some (13, 5) := by
    rw [← htext, Program.examine, Program.ofSource, Program.parse, tokenize_ofList]
    decide +kernel
  obtain ⟨program, table, m, hsource, hfit, hlower, -, hrun⟩ :=
    Program.exists_of_examine hrun (by decide)
  obtain ⟨o, ho, hrounds⟩ := Option.map_eq_some_iff.1 hrun
  rw [toOption_eq_some] at ho
  obtain ⟨m', hlower', h⟩ := Program.exists_optimize_twice hsource hfit
  cases hlower.symm.trans hlower'
  obtain ⟨_, ho', hagain⟩ := h [.branches, .propagation, .folding] (List.cons_ne_nil _ _)
  cases ho.symm.trans ho'
  exact ⟨program, table, m, o, hsource, hfit, hlower, ho, hrounds, hagain⟩

end Cinder
