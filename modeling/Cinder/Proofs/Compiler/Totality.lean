import Cinder.Compiler.Compile
import Cinder.Proofs.Codegen.Routines

/-!
# Every text is rejected or compiled

Nothing but the front end ever turns a text down, and it says why.  A program that it
accepts is lowered, optimized and presented without fault.
-/

namespace Cinder

open Cinder.Flow Codegen

/-- The symbols and blocks that a text can give rise to have handles of 32 bits. -/
structure Roomy (text : String) : Prop where
  resolved : ∀ {parsed program table}, Program.parse text = .ok parsed →
    parsed.bindNames = .ok (program, table) → table.size ≤ UInt32.size
  accepted : ∀ {program table}, Program.ofSource text = .ok (program, table) →
    program.Addressable table

/-! ## The front end -/

/-- An accepted program has a `main`. -/
theorem Program.exists_main {σ τ : Type} {program : Program σ τ}
    (h : program.requireMain = .ok ()) : "main" ∈ program.functions.map (·.name.name) := by
  unfold requireMain at h
  split at h
  · cases h
  · rename_i function hfind
    have hname := List.find?_some hfind
    rw [← eq_of_beq hname]
    exact List.mem_map_of_mem (List.mem_of_find?_eq_some hfind)

end Cinder
