import Cinder.Proofs.Compiler.Order
import Cinder.Proofs.Flow.Callees

/-!
# What code generation relies on

Lowering an accepted program gives a module whose functions are standard, receive
their parameters before anything else happens, and have names of their own, and whose
calls name functions of the module.  Optimization keeps all of that.
-/

namespace Cinder

open Cinder.Flow

namespace Flow

structure Function.Ready (table : SymbolTable) (f : Function) : Prop where
  standard : f.Standard table
  receives : f.Receives f.parameters
  typed : ∀ v ∈ f.parameters, ∃ ty, table.type? v.symbol = some ty
  distinct : f.parameters.Nodup

/-- Optimization changes the blocks of a function and nothing else. -/
theorem Function.Ready.rounds {table : SymbolTable} {f g : Function} (h : f.Ready table)
    (hrounds : f.Rounds table g) : g.Ready table ∧ { f with blocks := g.blocks } = g := by
  obtain ⟨hstandard, halike⟩ := h.standard.rounds hrounds
  have hparameters : f.parameters = g.parameters := by rw [← halike.head]
  refine ⟨⟨hstandard, ?_, ?_, ?_⟩, halike.head⟩
  · rw [← hparameters]
    exact h.receives.rounds hrounds
  · rw [← hparameters]
    exact h.typed
  · rw [← hparameters]
    exact h.distinct

structure Module.Ready (m : Module) : Prop where
  functions : ∀ f ∈ m.functions, f.Ready m.symbols
  names : (m.functions.map (·.name)).Nodup
  closed : m.Closed

theorem Module.Ready.exists_optimize {m : Module} (h : m.Ready) (passes : List Pass) :
    ∃ o, m.optimize passes = .ok o ∧ o.result.Ready ∧
      o.result.functions.map (·.name) = m.functions.map (·.name) := by
  have hlinked : m.Linked := fun f hf => (h.functions f hf).standard.wellFormed.linked
  obtain ⟨o, ho, hsymbols, hrounds⟩ := hlinked.exists_optimize passes
  have hkept : List.Forall₂ (fun f g => g.Ready m.symbols ∧ { f with blocks := g.blocks } = g)
      m.functions o.result.functions :=
    forall₂_imp_of_mem (fun hf _ hfg => (h.functions _ hf).rounds hfg) hrounds
  have hnames : o.result.functions.map (·.name) = m.functions.map (·.name) := by
    refine (map_eq_map_of_forall₂ (hkept.imp fun f g hfg => ?_)).symm
    rw [← hfg.2]
  refine ⟨o, ho, ⟨?_, ?_, ?_⟩, hnames⟩
  · intro g hg
    obtain ⟨f, hf, hready, -⟩ := forall₂_exists_left hkept hg
    rw [hsymbols]
    exact hready
  · rw [hnames]
    exact h.names
  · intro id parameters returnType hid
    rw [hsymbols] at hid ⊢
    obtain ⟨f, hf, hfid, hname, hparameters⟩ := h.closed hid
    obtain ⟨g, hg, -, hhead⟩ := forall₂_exists_left hkept.flip hf
    refine ⟨g, hg, ?_⟩
    rw [← hhead]
    exact ⟨hfid, hname, hparameters⟩

end Flow

namespace Program

variable {text : String} {program : Program.Typed} {table : SymbolTable}

/-- Accepted programs are lowered to modules that code can be generated for. -/
theorem exists_ready (hsource : ofSource text = .ok (program, table))
    (hfit : program.Addressable table) :
    ∃ m, program.lower table = .ok m ∧ m.Ready ∧
      m.functions.map (·.name) = program.functions.map (·.name.name) := by
  obtain ⟨m, hlower, hm, hproper⟩ := exists_lower hsource hfit
  obtain ⟨hb, ht⟩ := wellTyped_of_ofSource hsource (Nat.le_trans (Nat.le_add_right ..) hfit)
  have hheadings := headings_of_lower hb ht hlower
  have hnames : m.functions.map (·.name) = program.functions.map (·.name.name) := by
    refine (map_eq_map_of_forall₂ (hheadings.imp fun d f hheading => ?_)).symm
    simp only [Function.heading, Prod.mk.injEq] at hheading
    exact hheading.2.1.symm
  refine ⟨m, hlower, ⟨fun f hf => ?_, ?_, closed_of_lower hb ht hlower⟩, hnames⟩
  · obtain ⟨d, hd, hheading⟩ := forall₂_exists_left hheadings hf
    simp only [Function.heading, Prod.mk.injEq] at hheading
    obtain ⟨-, -, -, hparameters, -⟩ := hheading
    refine ⟨standard_of_lower hsource hlower hm hproper f hf,
      receives_of_lower hb ht hlower hm f hf, ?_, ?_⟩
    · rw [hparameters]
      intro v hv
      obtain ⟨p, hp, rfl⟩ := List.mem_map.1 hv
      exact ⟨_, (keeps_of_lower hlower).le.types
        (SymbolTable.type?_eq_some.2 ⟨_, _, (ht.headings d hd).parameters p hp⟩)⟩
    · have hnodup := hb.numbered.nodup_parameters (List.mem_map_of_mem hd)
      rw [hparameters]
      exact List.Nodup.of_map Variable.symbol (by rwa [List.map_map])
  · have hnodup := hb.names
    rw [hnames]
    rwa [signatures, List.map_map] at hnodup

end Program

end Cinder
