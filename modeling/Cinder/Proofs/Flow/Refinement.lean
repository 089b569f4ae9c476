import Cinder.Proofs.Flow.Semantics
import Mathlib.Data.List.Forall2

/-!
# Refinement

One function refines another one if it returns whatever the other one returns,
with the same calls on the way.  Whoever refines every function of a module
refines the module.
-/

namespace Cinder.Flow

namespace Function

/-- Every run of the first function that returns is one of the second. -/
structure Refines (f f' : Function) : Prop where
  symbol : f'.symbol = f.symbol
  returns : ∀ {calls init arguments events value},
    f.Returns calls init arguments events value → f'.Returns calls init arguments events value

namespace Refines

theorem refl (f : Function) : f.Refines f :=
  ⟨rfl, id⟩

theorem trans {f g h : Function} (hfg : f.Refines g) (hgh : g.Refines h) : f.Refines h :=
  ⟨hgh.symbol.trans hfg.symbol, fun hret => hgh.returns (hfg.returns hret)⟩

end Refines

/-- States of two functions that do the same from here on.  A step of the first
function may take any number of steps of the second. -/
structure Simulation (f f' : Function) (R : State → State → Prop) : Prop where
  start : ∀ {init arguments s}, f.start init arguments = some s →
    ∃ s', f'.start init arguments = some s' ∧ R s s'
  step : ∀ {calls s es t s'}, Step calls f s es t → R s s' →
    ∃ t', Steps calls f' s' es t' ∧ R t t'
  final : ∀ (calls : Calls) {s value s'}, s.Returns value → R s s' →
    ∃ t', Steps calls f' s' [] t' ∧ t'.Returns value

namespace Simulation

variable {f f' : Function} {R : State → State → Prop} {calls : Calls}

theorem steps (hsim : Simulation f f' R) {s t s' : State} {es : List Event}
    (h : Steps calls f s es t) (hR : R s s') : ∃ t', Steps calls f' s' es t' ∧ R t t' := by
  induction h generalizing s' with
  | refl => exact ⟨s', .refl, hR⟩
  | head hstep _ ih =>
    obtain ⟨u', hfirst, hRu⟩ := hsim.step hstep hR
    obtain ⟨t', hothers, hRt⟩ := ih hRu
    exact ⟨t', hfirst.trans hothers, hRt⟩

theorem refines (hsim : Simulation f f' R) (hsymbol : f'.symbol = f.symbol) : f.Refines f' := by
  refine ⟨hsymbol, ?_⟩
  intro calls init arguments events value hret
  obtain ⟨s, ⟨s₀, hstart, hsteps⟩, hs⟩ := hret
  obtain ⟨s₀', hstart', hR₀⟩ := hsim.start hstart
  obtain ⟨s', hsteps', hR⟩ := hsim.steps hsteps hR₀
  obtain ⟨t', hlast, ht⟩ := hsim.final calls hs hR
  have hall := hsteps'.trans hlast
  rw [List.append_nil] at hall
  exact ⟨t', ⟨s₀', hstart', hall⟩, ht⟩

end Simulation

end Function

namespace Module

theorem find?_of_refines {fs fs' : List Function} (h : List.Forall₂ Function.Refines fs fs')
    {symbol : SymbolId} {f : Function} (hf : fs.find? (fun f => f.symbol = symbol) = some f) :
    ∃ f', fs'.find? (fun f => f.symbol = symbol) = some f' ∧ f.Refines f' := by
  induction h with
  | nil => simp at hf
  | @cons g g' fs fs' hg _ ih =>
    by_cases hsymbol : g.symbol = symbol
    · have hg' : g'.symbol = symbol := hg.symbol.trans hsymbol
      rw [List.find?_cons_of_pos (by simpa using hsymbol)] at hf
      cases hf
      exact ⟨g', List.find?_cons_of_pos (by simpa using hg'), hg⟩
    · have hg' : ¬ g'.symbol = symbol := fun h' => hsymbol (hg.symbol.symm.trans h')
      rw [List.find?_cons_of_neg (by simpa using hsymbol)] at hf
      obtain ⟨f', hfind, hrefines⟩ := ih hf
      exact ⟨f', (List.find?_cons_of_neg (by simpa using hg')).trans hfind, hrefines⟩

theorem runsWithin_of_refines {m m' : Module}
    (h : List.Forall₂ Function.Refines m.functions m'.functions) (init : Env) (depth : Nat) :
    Calls.le (m.RunsWithin init depth) (m'.RunsWithin init depth) := by
  induction depth with
  | zero => exact fun _ _ _ _ hrun => hrun
  | succ depth ih =>
    intro callee arguments events value hrun
    obtain ⟨f, hf, hret⟩ := hrun
    obtain ⟨f', hf', hrefines⟩ := find?_of_refines h hf
    exact ⟨f', hf', (hrefines.returns hret).mono ih⟩

/-- A module whose functions refine those of another one does all it does. -/
theorem runs_of_refines {m m' : Module}
    (h : List.Forall₂ Function.Refines m.functions m'.functions) (init : Env) :
    Calls.le (m.Runs init) (m'.Runs init) := by
  intro callee arguments events value hrun
  obtain ⟨depth, hdepth⟩ := hrun
  exact ⟨depth, runsWithin_of_refines h init depth _ _ _ _ hdepth⟩

end Module

end Cinder.Flow
