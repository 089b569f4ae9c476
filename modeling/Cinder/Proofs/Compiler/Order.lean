import Cinder.Proofs.Flow.Confluence
import Cinder.Proofs.Flow.Translation

/-!
# The order of passes

An accepted program is lowered to standard functions, so what optimization makes of
it depends neither on the order of the passes nor on how often each of them is run,
as long as none is left out.
-/

namespace Cinder

open Cinder.Flow

theorem Program.standard_of_lower {text : String} {program : Program.Typed}
    {table : SymbolTable} {m : Module} (hsource : Program.ofSource text = .ok (program, table))
    (hlower : program.lower table = .ok m) (hfit : m.Addressable) (hproper : m.Proper) :
    m.Standard := by
  intro f hf
  exact ⟨Program.wellFormed_of_lower hsource hlower hfit f hf, hproper f hf,
    Program.apart_of_lower hsource hlower hfit f hf,
    Program.acyclic_of_lower hsource hlower hfit f hf⟩

/-- Optimizing an accepted program with any list that holds all passes comes to an
end, and always with the same listing. -/
theorem Program.exists_listing_optimize {text : String} {program : Program.Typed}
    {table : SymbolTable} (hsource : Program.ofSource text = .ok (program, table))
    (hfit : program.Addressable table) :
    ∃ m listing, program.lower table = .ok m ∧ ∀ passes : List Pass, (∀ pass, pass ∈ passes) →
      ∃ o, m.optimize passes = .ok o ∧ o.result.listing = .ok listing := by
  obtain ⟨m, hlower, hm, hproper⟩ := Program.exists_lower hsource hfit
  obtain ⟨listing, h⟩ := (Program.standard_of_lower hsource hlower hm hproper).exists_listing
  exact ⟨m, listing, hlower, h⟩

/-- Backwards the passes need another round for this program, and end at the same
listing. -/
theorem Program.exists_listing_optimize_if :
    ∃ program table m o o',
      Program.ofSource "fun f() @u8:\n    if 1 < 2:\n        return 1\n    return 2\n" =
          .ok (program, table) ∧
        program.Addressable table ∧ program.lower table = .ok m ∧
        m.optimize Pass.all = .ok o ∧ o.rounds = 3 ∧
        m.optimize Pass.all.reverse = .ok o' ∧ o'.rounds = 4 ∧
        o.result.listing = o'.result.listing := by
  generalize htext : "fun f() @u8:\n    if 1 < 2:\n        return 1\n    return 2\n" = text
  have hrun : (Program.examine text fun _ m => (m.optimize Pass.all).toOption.bind fun o =>
      (m.optimize Pass.all.reverse).toOption.map fun o' => (o.rounds, o'.rounds)) =
      some (11, 3, 4) := by
    rw [← htext, Program.examine, Program.ofSource, Program.parse, tokenize_ofList]
    decide +kernel
  obtain ⟨program, table, m, hsource, hfit, hlower, -, hrun⟩ :=
    Program.exists_of_examine hrun (by decide)
  obtain ⟨o, ho, hrun⟩ := Option.bind_eq_some_iff.1 hrun
  obtain ⟨o', ho', hrun⟩ := Option.map_eq_some_iff.1 hrun
  simp only [Prod.mk.injEq] at hrun
  obtain ⟨hrounds, hrounds'⟩ := hrun
  rw [toOption_eq_some] at ho ho'
  obtain ⟨m', listing, hlower', h⟩ := Program.exists_listing_optimize hsource hfit
  cases hlower.symm.trans hlower'
  obtain ⟨_, hall, hlisting⟩ := h Pass.all fun pass => by cases pass <;> decide
  obtain ⟨_, hreverse, hlisting'⟩ := h Pass.all.reverse fun pass => by cases pass <;> decide
  cases ho.symm.trans hall
  cases ho'.symm.trans hreverse
  exact ⟨program, table, m, o, o', hsource, hfit, hlower, ho, hrounds, ho', hrounds',
    hlisting.trans hlisting'.symm⟩

end Cinder
