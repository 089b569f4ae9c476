import Cinder.Proofs.Flow.Confluence
import Cinder.Proofs.Flow.Liveness

/-!
# Lifetimes of temporaries

A temporary lives inside of one block: a single instruction of the whole module writes
it, and what reads it stands behind that instruction, in the same block.  So none is
live where a block is entered or left.
-/

namespace Cinder.Flow

variable {table : SymbolTable} {v : Variable}

/-! ## Lists of instructions -/

theorem ReadsWritten.notMem_live {written : List Variable} {l : List Instruction}
    {s : VariableSet} (h : ReadsWritten table written l) (hv : table.isTemporary v.symbol = true)
    (hwritten : v ∉ written) (hs : v ∉ s) : v ∉ l.foldr Instruction.live s := by
  induction l generalizing written with
  | nil => exact hs
  | cons i rest ih =>
    intro hmem
    rcases Instruction.mem_live.1 hmem with huse | ⟨hmem, hne⟩
    · exact hwritten (h.1 v huse hv)
    · refine ih h.2 ?_ hmem
      rw [List.mem_append, Option.mem_toList, Instruction.temporary?_eq_some]
      rintro (hmem | ⟨hdefinition, -⟩)
      · exact hwritten hmem
      · exact hne hdefinition

namespace Tidy

variable {l : List Instruction} {i j : Instruction} {m n : Nat}

section

variable (h : Tidy table l) (hv : table.isTemporary v.symbol = true)

include h hv

theorem definition_ne_of_lt (hi : l[m]? = some i) (hj : l[n]? = some j) (hlt : m < n)
    (hdefinition : i.definition = some v) : j.definition ≠ some v := by
  obtain ⟨hn, rfl⟩ := List.getElem?_eq_some_iff.1 hj
  have hsplit : l = l.take n ++ l[n] :: l.drop (n + 1) := by
    rw [List.getElem_cons_drop, List.take_append_drop]
  have hmem : i ∈ l.take n := by
    apply List.mem_of_getElem?
    rw [List.getElem?_take_of_lt hlt]
    exact hi
  rw [hsplit] at h
  exact h.definition_ne (mem_temporaries.2 ⟨hv, i, hmem, hdefinition⟩)

/-- The instruction that writes a temporary has one place in its list. -/
theorem index_eq (hi : l[m]? = some i) (hj : l[n]? = some j) (hdefinition : i.definition = some v)
    (hdefinition' : j.definition = some v) : m = n := by
  rcases Nat.lt_trichotomy m n with hlt | heq | hlt
  · exact absurd hdefinition' (h.definition_ne_of_lt hv hi hj hlt hdefinition)
  · exact heq
  · exact absurd hdefinition (h.definition_ne_of_lt hv hj hi hlt hdefinition')

theorem exists_definition (hj : l[n]? = some j) (huse : v ∈ j.uses) :
    ∃ m < n, ∃ i, l[m]? = some i ∧ i.definition = some v := by
  obtain ⟨hn, rfl⟩ := List.getElem?_eq_some_iff.1 hj
  have hsplit : l = l.take n ++ l[n] :: l.drop (n + 1) := by
    rw [List.getElem_cons_drop, List.take_append_drop]
  have hordered := h.ordered
  rw [hsplit] at hordered
  obtain ⟨-, i, hi, hdefinition⟩ := mem_temporaries.1 (hordered.mem huse hv)
  obtain ⟨m, hm⟩ := List.mem_iff_getElem?.1 hi
  rw [List.getElem?_take] at hm
  split at hm
  · rename_i hlt
    exact ⟨m, hlt, i, hm, hdefinition⟩
  · cases hm

end

end Tidy

/-! ## Functions -/

theorem Function.Lives.isTemporary_eq_false {f : Function}
    {entering leaving : BlockId → VariableSet}
    (hl : f.Lives entering leaving) (hc : f.Acyclic) (ht : f.Tidied table) {id : BlockId}
    (h : v ∈ entering id ∨ v ∈ leaving id) : table.isTemporary v.symbol = false := by
  rw [← Bool.not_eq_true]
  intro hv
  have hentering : ∀ id, v ∉ entering id := by
    intro id
    -- from the exit backwards: what is behind a block is not live at its end
    induction id using hc.induction with
    | _ id ih =>
      by_cases hid : id ∈ f.preorder
      · have hleaving : v ∉ leaving id := by
          rw [hl.leaving_iff hid]
          rintro ⟨n, hn, hmem⟩
          exact ih n hn hmem
        rw [hl.entering_eq hid]
        cases hb : f.block? id with
        | none =>
          rw [Function.instructionsOf, hb]
          exact hleaving
        | some block =>
          rw [Function.instructionsOf_of_block? hb]
          exact (ht hb).ordered.notMem_live hv List.not_mem_nil hleaving
      · rw [(hl.outside hid).1]
        exact Std.ExtTreeSet.not_mem_empty
  rcases h with h | h
  · exact hentering id h
  · by_cases hid : id ∈ f.preorder
    · obtain ⟨n, -, hmem⟩ := (hl.leaving_iff hid).1 h
      exact hentering n hmem
    · rw [(hl.outside hid).2] at h
      exact Std.ExtTreeSet.not_mem_empty h

/-! ## Modules -/

structure Site where
  function : Nat
  block : BlockId
  index : Nat
deriving DecidableEq, Repr

namespace Module

def instructionAt? (m : Module) (site : Site) : Option Instruction := do
  let f ← m.functions[site.function]?
  let block ← f.block? site.block
  block.instructions[site.index]?

theorem instructionAt?_eq_some {m : Module} {site : Site} {i : Instruction} :
    m.instructionAt? site = some i ↔ ∃ f block, m.functions[site.function]? = some f ∧
      f.block? site.block = some block ∧ block.instructions[site.index]? = some i := by
  simp only [instructionAt?, Option.bind_eq_bind, Option.bind_eq_some_iff]
  constructor
  · rintro ⟨f, hf, block, hb, hi⟩
    exact ⟨f, block, hf, hb, hi⟩
  · rintro ⟨f, block, hf, hb, hi⟩
    exact ⟨f, hf, block, hb, hi⟩

/-- Temporaries are written once in the whole module, and read behind that in the same
block; the analysis of live variables finds none of them at an end of a block. -/
structure SingleAssignment (m : Module) : Prop where
  once : ∀ {v s t i j}, m.symbols.isTemporary v.symbol = true → m.instructionAt? s = some i →
    m.instructionAt? t = some j → i.definition = some v → j.definition = some v → s = t
  ordered : ∀ {v t j}, m.symbols.isTemporary v.symbol = true → m.instructionAt? t = some j →
    v ∈ j.uses → ∃ index < t.index, ∃ i, m.instructionAt? { t with index } = some i ∧
      i.definition = some v
  dead : ∀ f ∈ m.functions, ∃ states, f.blockLiveness = .ok states ∧
    ∀ id < f.blocks.size, ∃ entering leaving, states.inputs.get? id = some entering ∧
      states.outputs.get? id = some leaving ∧
      ∀ v, v ∈ entering ∨ v ∈ leaving → m.symbols.isTemporary v.symbol = false

theorem singleAssignment {m : Module} (hm : m.Standard)
    (hseparate : m.functions.Pairwise (Function.Separate m.symbols)) : m.SingleAssignment where
  once := by
    rintro v ⟨a, b, x⟩ ⟨a', b', x'⟩ i j hv hs ht hdefinition hdefinition'
    obtain ⟨f, block, hf, hb, hi⟩ := instructionAt?_eq_some.1 hs
    obtain ⟨g, block', hg, hb', hj⟩ := instructionAt?_eq_some.1 ht
    have hdefines : f.Defines v b :=
      ⟨block, hb, mem_definitions.2 ⟨i, List.mem_of_getElem? hi, hdefinition⟩⟩
    have hdefines' : g.Defines v b' :=
      ⟨block', hb', mem_definitions.2 ⟨j, List.mem_of_getElem? hj, hdefinition'⟩⟩
    obtain ⟨ha, rfl⟩ := List.getElem?_eq_some_iff.1 hf
    obtain ⟨ha', rfl⟩ := List.getElem?_eq_some_iff.1 hg
    rw [List.pairwise_iff_getElem] at hseparate
    obtain rfl : a = a' := by
      rcases Nat.lt_trichotomy a a' with hlt | heq | hlt
      · exact absurd hdefines' (hseparate a a' ha ha' hlt v b b' hv hdefines)
      · exact heq
      · exact absurd hdefines (hseparate a' a ha' ha hlt v b' b hv hdefines')
    have hstandard := hm _ (List.getElem_mem ha)
    obtain rfl : b = b' := hstandard.apart v b b' hv hdefines hdefines'
    cases hb.symm.trans hb'
    obtain rfl : x = x' :=
      (hstandard.wellFormed.tidied hb).index_eq hv hi hj hdefinition hdefinition'
    rfl
  ordered := by
    intro v t j hv ht huse
    obtain ⟨f, block, hf, hb, hj⟩ := instructionAt?_eq_some.1 ht
    have htidy := (hm f (List.mem_of_getElem? hf)).wellFormed.tidied hb
    obtain ⟨index, hlt, i, hi, hdefinition⟩ := htidy.exists_definition hv hj huse
    exact ⟨index, hlt, i, instructionAt?_eq_some.2 ⟨f, block, hf, hb, hi⟩, hdefinition⟩
  dead := by
    intro f hf
    have hstandard := hm f hf
    obtain ⟨states, entering, leaving, hstates, hlives, hget⟩ :=
      hstandard.wellFormed.linked.enclosed.exists_blockLiveness
    refine ⟨states, hstates, fun id hid => ⟨_, _, (hget id hid).1, (hget id hid).2, ?_⟩⟩
    intro v hv
    exact hlives.isTemporary_eq_false hstandard.acyclic hstandard.wellFormed.tidied hv

end Module

end Cinder.Flow
