import Cinder.Proofs.Compiler.Ready
import Cinder.Proofs.Placement.Frame
import Cinder.Proofs.Placement.Safety

/-!
# Functions and the places of their variables

The variables of a function that is ready for code generation can be placed.  All
variables around an instruction then have locations of their register files, and no
parameter is needed behind an instruction whose code overwrites registers.
-/

namespace Cinder

open Cinder.Flow Interference

def Placement.Locates (p : Placement) (table : SymbolTable) (v : Variable) : Prop :=
  ∃ location ty, p.locations[v]? = some location ∧ table.type? v.symbol = some ty ∧
    location.Holds ty.valueClass

theorem Placement.Places.locates {p : Placement} {table : SymbolTable} {f : Function}
    {g : Interference} (h : p.Places table f g) {v : Variable} (hv : v ∈ g.nodes) :
    p.Locates table v := by
  obtain ⟨location, hlocation⟩ := h.located hv
  obtain ⟨ty, hty, hholds⟩ := h.holds hlocation
  exact ⟨location, ty, hlocation, hty, hholds⟩

theorem Flow.Block.Agrees.exists_label {exit id : BlockId} {block : Block}
    (h : block.Agrees exit id) :
    ∃ body, block.instructions = .label id :: body ∧ ∀ i ∈ body, i.isLabel = false := by
  have hplain : ∀ {body : List Instruction}, (∀ i ∈ body, i.isPlain = true) →
      ∀ i ∈ body, i.isLabel = false := by
    intro body hbody i hi
    have hi := hbody i hi
    cases i with
    | label => cases hi
    | _ => rfl
  have hlast : ∀ {body : List Instruction} {last : Instruction}, (∀ i ∈ body, i.isPlain = true) →
      last.isLabel = false → ∀ i ∈ body ++ [last], i.isLabel = false := by
    intro body last hbody hlast
    exact List.forall_mem_append.2 ⟨hplain hbody, List.forall_mem_singleton.2 hlast⟩
  cases h with
  | fall _ hbody => exact ⟨_, rfl, hplain hbody⟩
  | goto _ hbody => exact ⟨_, rfl, hlast hbody rfl⟩
  | branch _ hbody => exact ⟨_, rfl, hlast hbody rfl⟩
  | ret _ hbody => exact ⟨_, rfl, hlast hbody rfl⟩

namespace Flow.Function

variable {table : SymbolTable} {f : Function} {live : Arena (List (Point VariableSet))}
  {p : Placement}

structure Placed (table : SymbolTable) (f : Function) (live : Arena (List (Point VariableSet)))
    (p : Placement) : Prop where
  liveness : f.instructionLiveness = .ok live
  placement : Placement.ofLiveness table f live = .ok p
  covers : ∀ {id}, id ∈ f.preorder → (annotated f live id).map Prod.fst = f.instructionsOf id
  around : ∀ {id i point v}, id ∈ f.preorder → (i, point) ∈ annotated f live id →
    v ∈ i.uses ∨ i.definition = some v ∨ v ∈ point.after → p.Locates table v
  written : ∀ {id i point d v}, id ∈ f.preorder → (i, point) ∈ annotated f live id →
    i.definition = some d → v ∈ point.after → d ≠ v → ¬ p.Shares d v
  spared : ∀ {id i point v}, id ∈ f.preorder → (i, point) ∈ annotated f live id →
    i.overwrites = true → v ∈ f.parameters → v ∉ point.after

theorem Placed.laid (h : f.Placed table live p) : p.Laid table f :=
  Placement.laid_of_ofLiveness h.placement

section

variable {g : Interference} {entering leaving : BlockId → VariableSet} {id : BlockId} {v : Variable}
  (hl : f.Linked) (ha : f.Agrees) (hlives : f.Lives entering leaving)
  (hpoints : ∀ id ∈ f.preorder, (live.get? id).getD [] =
    f.liveness.pointsBackward (leaving id) (f.instructionsOf id))
  (hrecords : g.Records f live)

include hpoints hrecords

/-- What is live in front of an instruction is a node of the interference graph. -/
theorem mem_nodes_of_mem_foldr {done rest : List Instruction} {i : Instruction}
    (hid : id ∈ f.preorder) (hsplit : f.instructionsOf id = done ++ i :: rest)
    (hv : v ∈ (i :: rest).foldr Instruction.live (leaving id)) : v ∈ g.nodes := by
  let after := rest.foldr Instruction.live (leaving id)
  have hmem : (i, (⟨i.live after, after⟩ : Point VariableSet)) ∈ annotated f live id :=
    (mem_annotated (hpoints id hid)).2 ⟨done, rest, hsplit, rfl, rfl⟩
  exact hrecords.around hid hmem (.inr (.inl hv))

include hl ha hlives

/-- What is live at the start of a block is a node of the interference graph. -/
theorem mem_nodes_of_mem_entering (hv : v ∈ entering id) : v ∈ g.nodes := by
  by_cases hid : id ∈ f.preorder
  · obtain ⟨block, hb⟩ := exists_block? (lt_size_of_mem_preorder hl.exit hid)
    obtain ⟨body, hbody, -⟩ := (ha hb).exists_label
    rw [← instructionsOf_of_block? hb] at hbody
    rw [hlives.entering_eq hid, hbody] at hv
    rw [← List.nil_append (_ :: body)] at hbody
    exact mem_nodes_of_mem_foldr hpoints hrecords hid hbody hv
  · rw [(hlives.outside hid).1] at hv
    exact absurd hv Std.ExtTreeSet.not_mem_empty

/-- What is live behind an instruction is a node of the interference graph. -/
theorem mem_nodes_of_mem_after {i : Instruction} {point : Point VariableSet}
    (hid : id ∈ f.preorder) (hmem : (i, point) ∈ annotated f live id) (hv : v ∈ point.after) :
    v ∈ g.nodes := by
  obtain ⟨done, rest, hsplit, hafter, -⟩ := (mem_annotated (hpoints id hid)).1 hmem
  rw [hafter] at hv
  cases rest with
  | nil =>
    obtain ⟨n, -, hv⟩ := (hlives.leaving_iff hid).1 hv
    exact mem_nodes_of_mem_entering hl ha hlives hpoints hrecords hv
  | cons j rest =>
    rw [List.append_cons] at hsplit
    exact mem_nodes_of_mem_foldr hpoints hrecords hid hsplit hv

end

/-- The variables of a function that is ready for code generation can be placed. -/
theorem Ready.exists_placed (h : f.Ready table) : ∃ live p, f.Placed table live p := by
  obtain ⟨⟨hl, ha, -⟩, hproper, -, hacyclic⟩ := h.standard
  have htyped : ∀ v, f.Mentions v → ∃ ty, table.type? v.symbol = some ty := by
    rintro v (hv | ⟨j, block, hb, i, hi, hv⟩)
    · exact h.typed v hv
    · exact (hproper j block hb i hi).typed.exists_type hv.symm
  obtain ⟨live, entering, leaving, g, p, hlive, hlives, hpoints, hrecords, hp, hplaces⟩ :=
    Placement.exists_places hl.enclosed htyped
  refine ⟨live, p, hlive, hp, ?_, ?_, ?_, ?_⟩
  · intro id hid
    rw [annotated, hpoints id hid]
    exact List.map_fst_zip (Nat.le_of_eq (f.liveness.length_pointsBackward ..).symm)
  · intro id i point v hid hmem hv
    refine hplaces.locates ?_
    rcases hv with hv | hv | hv
    · exact hrecords.around hid hmem (.inl hv)
    · exact hrecords.around hid hmem (.inr (.inr hv))
    · exact mem_nodes_of_mem_after hl ha hlives hpoints hrecords hid hmem hv
  · intro id i point d v hid hmem hd hv hne
    exact hplaces.not_shares hne (hrecords.written hid hmem hd hv hne)
  · intro id i point v hid hmem hover hv
    obtain ⟨done, rest, hsplit, hafter, -⟩ := (mem_annotated (hpoints id hid)).1 hmem
    rw [hafter]
    exact h.receives.not_mem_after hacyclic ha hlives hid hv hsplit hover

end Flow.Function

end Cinder
