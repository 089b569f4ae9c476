import Cinder.Proofs.Flow.Functions
import Cinder.Proofs.Flow.Interpreter
import Cinder.Proofs.Flow.Translation

/-!
# Lowering keeps the meaning of programs

A function of an accepted program that returns, in the meaning that programs have,
is lowered to a flow graph that returns the same value.
-/

namespace Cinder

open Cinder.Flow

/-! ## Functions by name and by symbol -/

namespace Signature

variable {signatures : List Signature} {next : Nat}

theorem Numbered.nodup (h : Numbered next signatures) : (signatures.map (·.symbol)).Nodup := by
  induction signatures generalizing next with
  | nil => exact List.nodup_nil
  | cons first rest ih =>
    obtain ⟨hsymbol, -, hrest⟩ := h
    refine List.nodup_cons.2 ⟨fun hmem => ?_, ih hrest⟩
    obtain ⟨s, hs, heq⟩ := List.mem_map.1 hmem
    have hlt : next + 1 + first.parameters.length ≤ s.symbol := (hrest.lt hs).1
    have heq : s.symbol = next := heq.trans hsymbol
    rw [heq] at hlt
    omega

theorem symbol_of_find? (hnames : (signatures.map (·.name)).Nodup) {s : Signature}
    (hs : s ∈ signatures) {symbol : SymbolId}
    (h : (scope signatures).find? s.name = some (.function symbol)) : s.symbol = symbol := by
  obtain ⟨s', hs', hname, hr⟩ := find?_scope h
  cases hr
  rw [List.inj_on_of_nodup_map hnames hs' hs hname]

end Signature

/-! ## Lowered programs -/

namespace Program

variable {program : Program.Typed} {table : SymbolTable} {m : Module}

/-- A function does what its definition says if the functions it calls do. -/
theorem reaches_of_lower (hb : program.Bound) (ht : program.WellTyped table)
    (hlower : program.lower table = .ok m) (hfit : m.Addressable) :
    List.Forall₂ (fun d f => f.symbol = d.symbol ∧
      ∀ calls results init arguments value,
        Calls.Serves calls results (Signature.scope program.signatures) →
        d.call results arguments = some value →
          ∃ events s, f.Reaches calls init arguments events s ∧ s.block = f.exit ∧
            s.Returns value)
      program.functions m.functions := by
  refine forall₂_imp_of_mem ?_ (drafts_of_lower hlower)
  rintro d f hd hf ⟨before, start, opened, last, complete, hbefore, hdrafts, rfl, hafter⟩
  obtain ⟨first, haccepted⟩ := accepted hb ht d hd
  refine ⟨?_, fun calls results init arguments value hserves hcall => ?_⟩
  · exact congrArg Prod.fst (hdrafts.heading_complete haccepted hbefore)
  · exact hdrafts.reaches_of_call haccepted hbefore (Signature.find?_scope_ne_var _) hserves
      (Nat.le_trans hafter.size_le hfit.symbols) (hfit.blocks _ hf) hcall init

/-- The function that a definition has been lowered to is the one of its symbol. -/
theorem function?_of_mem (hb : program.Bound) {P : Definition.Typed → Function → Prop}
    (h : List.Forall₂ (fun d f => f.symbol = d.symbol ∧ P d f) program.functions m.functions)
    {d : Definition.Typed} (hd : d ∈ program.functions) :
    ∃ f, m.function? d.symbol = some f ∧ P d f := by
  have hsymbols : (program.functions.map (·.symbol)).Nodup := by
    have hnodup := hb.numbered.nodup
    rwa [signatures, List.map_map] at hnodup
  rw [Module.function?]
  generalize m.functions = functions at h
  generalize program.functions = definitions at h hd hsymbols
  induction h with
  | nil => cases hd
  | @cons e f rest functions hfirst hrest ih =>
    obtain ⟨hfresh, hsymbols⟩ := List.nodup_cons.1 hsymbols
    rcases List.mem_cons.1 hd with rfl | hd
    · refine ⟨f, ?_, hfirst.2⟩
      rw [List.find?_cons_of_pos (by simpa using hfirst.1)]
    · obtain ⟨g, hg, hP⟩ := ih hd hsymbols
      refine ⟨g, ?_, hP⟩
      rw [List.find?_cons_of_neg, hg]
      have hne : e.symbol ≠ d.symbol :=
        fun heq => hfresh (List.mem_map.2 ⟨d, hd, heq.symm⟩)
      simpa [hfirst.1] using hne

theorem serves_of_lower (hb : program.Bound) (ht : program.WellTyped table)
    (hlower : program.lower table = .ok m) (hfit : m.Addressable) (init : Env) (depth : Nat) :
    (m.RunsWithin init depth).Serves (program.call depth) (Signature.scope program.signatures) := by
  have hreaches := reaches_of_lower hb ht hlower hfit
  induction depth with
  | zero =>
    intro name symbol arguments value _ hcall
    cases hcall
  | succ depth ih =>
    intro name symbol arguments value hfind hcall
    obtain ⟨d, hd, hcall⟩ := Option.bind_eq_some_iff.1 hcall
    have hmem := List.mem_of_find?_eq_some hd
    have hname : d.name.name = name := by simpa using List.find?_some hd
    rw [← hname] at hfind
    have hsymbol : d.symbol = symbol :=
      Signature.symbol_of_find? hb.names (List.mem_map_of_mem hmem) hfind
    obtain ⟨f, hf, hreaches⟩ := function?_of_mem hb hreaches hmem
    obtain ⟨events, s, hreaches, -, hreturns⟩ := hreaches _ _ init _ _ ih hcall
    rw [hsymbol] at hf
    exact ⟨events, f, hf, s, hreaches, hreturns⟩

/-- Whenever a call of a function of an accepted program comes to an end, its flow
graph gets from its entry to the end of its exit with the same value, or without
one if there is none.  It returns nothing else. -/
theorem reaches_lower {text : String} (hsource : ofSource text = .ok (program, table))
    (hlower : program.lower table = .ok m) (hfit : m.Addressable) :
    List.Forall₂ (fun d f => f.symbol = d.symbol ∧ ∀ depth arguments value init,
        d.call (program.call depth) arguments = some value →
          (∃ events s, f.Reaches (m.Runs init) init arguments events s ∧ s.block = f.exit ∧
            s.Returns value) ∧
          ∀ events value', f.Returns (m.Runs init) init arguments events value' → value' = value)
      program.functions m.functions := by
  have hkeeps : table.Keeps m.symbols := by
    obtain ⟨⟨functions, table'⟩, hall, h⟩ := bind_eq_ok.1 hlower
    cases h
    exact Definition.keeps_of_lowerAll hall
  obtain ⟨hb, ht⟩ := wellTyped_of_ofSource hsource (Nat.le_trans hkeeps.size_le hfit.symbols)
  refine (reaches_of_lower hb ht hlower hfit).imp fun d f hf => ⟨hf.1, ?_⟩
  intro depth arguments value init hcall
  obtain ⟨events, s, hreaches, hexit, hreturns⟩ :=
    hf.2 _ _ init _ _ (serves_of_lower hb ht hlower hfit init depth) hcall
  have hreaches : f.Reaches (m.Runs init) init arguments events s :=
    hreaches.mono fun _ _ _ _ hrun => ⟨depth, hrun⟩
  refine ⟨⟨events, s, hreaches, hexit, hreturns⟩, fun events' value' hreturns' => ?_⟩
  exact (hreturns'.unique (m.functional_runs init) ⟨s, hreaches, hreturns⟩).2

/-- A function that calls itself out of the middle of an expression. -/
theorem reaches_lower_factorial :
    ∃ program table m d f,
      ofSource "fun f(n @u8) @u8:\n    if n < 2:\n        return 1\n    return n * f(n - 1)\n" =
          .ok (program, table) ∧
        program.lower table = .ok m ∧ m.Addressable ∧ d ∈ program.functions ∧ f ∈ m.functions ∧
        f.symbol = d.symbol ∧
        d.call (program.call 3) [.ofInt .w8 false 3] = some (some (.ofInt .w8 false 6)) ∧
        ∃ events s, f.Reaches (m.Runs fun _ => .bool false) (fun _ => .bool false)
          [.ofInt .w8 false 3] events s ∧ s.block = f.exit ∧
          s.Returns (some (.ofInt .w8 false 6)) := by
  generalize htext :
    "fun f(n @u8) @u8:\n    if n < 2:\n        return 1\n    return n * f(n - 1)\n" = text
  have hrun : (examine text fun program _ => program.call 4 "f" [.ofInt .w8 false 3]) =
      some (18, some (.ofInt .w8 false 6)) := by
    rw [← htext, examine, ofSource, parse, tokenize_ofList]
    decide +kernel
  obtain ⟨program, table, m, hsource, -, hlower, hfit, hcall⟩ := exists_of_examine hrun (by decide)
  obtain ⟨d, hd, hcall⟩ := Option.bind_eq_some_iff.1 hcall
  have hd := List.mem_of_find?_eq_some hd
  obtain ⟨f, hf, hsymbol, hreaches⟩ :=
    forall₂_exists_left (reaches_lower hsource hlower hfit).flip hd
  exact ⟨program, table, m, d, f, hsource, hlower, hfit, hd, hf, hsymbol, hcall,
    (hreaches _ _ _ _ hcall).1⟩

end Program

end Cinder
