import Cinder.Proofs.Flow.Termination

/-!
# Optimization keeps what functions return

The rounds of the optimizer turn a well-formed function into one that refines it.
The variables in use and the order of the blocks are looked up once in a round;
they stay right because no rewrite leads to another block or reads another
variable.
-/

namespace Cinder.Flow

variable {table : SymbolTable}

namespace Function

/-- What lowering makes of every function, and what passes rely on. -/
structure WellFormed (table : SymbolTable) (f : Function) : Prop where
  linked : f.Linked
  agrees : f.Agrees
  tidied : f.Tidied table

theorem WellFormed.round {f g : Function} (hf : f.WellFormed table) (h : f.Round table g) :
    g.WellFormed table ∧ f.Refines g := by
  obtain ⟨hg, -, hrefines⟩ := RewritesIn.keep h
    (P := fun g => g.WellFormed table ∧
      g.Confined (· ∈ f.preorder) (f.usedBy f.preorder) ∧ f.Refines g)
    (by
      intro id g g' hid hrw ⟨hg, hconf, hrefines⟩
      refine ⟨⟨hg.linked.rewrite hrw, Agrees.rewrite hg.agrees hrw,
        Tidied.rewrite hg.tidied hconf hid hrw⟩,
        hconf.rewrite hrw, hrefines.trans (hrw.refines hg.tidied hconf)⟩)
    ⟨hf, hf.linked.confined hf.agrees, .refl f⟩
  exact ⟨hg, hrefines⟩

theorem WellFormed.rounds {f g : Function} (hf : f.WellFormed table) (h : f.Rounds table g) :
    g.WellFormed table ∧ f.Refines g := by
  induction h with
  | refl => exact ⟨hf, .refl f⟩
  | tail _ h ih =>
    obtain ⟨hg, hrefines⟩ := ih
    obtain ⟨hg', hrefines'⟩ := hg.round h
    exact ⟨hg', hrefines.trans hrefines'⟩

end Function

namespace Module

def WellFormed (m : Module) : Prop :=
  ∀ f ∈ m.functions, f.WellFormed m.symbols

/-- Optimizing a well-formed module refines every function. -/
theorem WellFormed.exists_optimize {m : Module} (hm : m.WellFormed) (passes : List Pass) :
    ∃ o, m.optimize passes = .ok o ∧ o.result.symbols = m.symbols ∧ o.result.WellFormed ∧
      List.Forall₂ Function.Refines m.functions o.result.functions := by
  have hl : m.Linked := fun f hf => (hm f hf).linked
  obtain ⟨o, ho, hsymbols, hrounds⟩ := hl.exists_optimize passes
  refine ⟨o, ho, hsymbols, ?_, ?_⟩
  · intro g hg
    obtain ⟨f, hf, hfg⟩ := forall₂_exists_left hrounds hg
    rw [hsymbols]
    exact ((hm f hf).rounds hfg).1
  · refine forall₂_imp_of_mem ?_ hrounds
    intro f g hf _ hfg
    exact ((hm f hf).rounds hfg).2

end Module

end Cinder.Flow
