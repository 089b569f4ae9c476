import Cinder.Proofs.Placement.Locations

/-!
# Registers of live variables

At no point of a function do two variables that are live there share a register, and
what an instruction writes overwrites no register that is needed behind it.
-/

namespace Cinder

open Cinder.Flow Interference

/-! ## Variables of a function -/

namespace Flow.Function

variable {f : Function} {v : Variable}

/-- A variable is a parameter of a function, or one of its instructions reads or
writes it. -/
def Mentions (f : Function) (v : Variable) : Prop :=
  v ∈ f.parameters ∨ ∃ j block, f.block? j = some block ∧
    ∃ i ∈ block.instructions, v ∈ i.uses ∨ i.definition = some v

theorem mentions_of_mem_instructionsOf {id : BlockId} {i : Instruction}
    (hi : i ∈ f.instructionsOf id) (hv : v ∈ i.uses ∨ i.definition = some v) : f.Mentions v := by
  cases hb : f.block? id with
  | none => simp [instructionsOf, hb] at hi
  | some block =>
    rw [instructionsOf_of_block? hb] at hi
    exact .inr ⟨id, block, hb, i, hi, hv⟩

theorem mentions_of_mem_reads (h : v ∈ f.reads) : f.Mentions v := by
  obtain ⟨block, hblock, h⟩ := List.mem_flatMap.1 h
  obtain ⟨i, hi, hv⟩ := List.mem_flatMap.1 h
  obtain ⟨j, hj⟩ := List.getElem?_of_mem hblock
  have hb : f.block? j = some block := by
    rw [← hj]
    exact Array.getElem?_toList.symm
  exact .inr ⟨j, block, hb, i, hi, .inl hv⟩

theorem Lives.mem_reads {entering leaving : BlockId → VariableSet} (h : f.Lives entering leaving)
    (hreads : ∀ id, ∀ v ∈ entering id, v ∈ f.reads) {id : BlockId} (hid : id ∈ f.preorder)
    {rest : List Instruction} (hrest : ∀ i ∈ rest, i ∈ f.instructionsOf id)
    (hv : v ∈ rest.foldr Instruction.live (leaving id)) : v ∈ f.reads := by
  rcases Instruction.mem_uses_of_mem_foldr_live hv with hv | ⟨i, hi, hv⟩
  · obtain ⟨n, -, hv⟩ := (h.leaving_iff hid).1 hv
    exact hreads n v hv
  · exact Function.mem_reads (hrest i hi) hv

end Flow.Function

namespace Placement

variable {table : SymbolTable} {f : Function}

/-- Placing the variables of a function succeeds if they have types and the links of
the function stay within it. -/
theorem exists_places (he : f.Enclosed)
    (htyped : ∀ v, f.Mentions v → ∃ ty, table.type? v.symbol = some ty) :
    ∃ live entering leaving g p, f.instructionLiveness = .ok live ∧ f.Lives entering leaving ∧
      (∀ id ∈ f.preorder, (live.get? id).getD [] =
        f.liveness.pointsBackward (leaving id) (f.instructionsOf id)) ∧
      g.Records f live ∧ ofLiveness table f live = .ok p ∧ p.Places table f g := by
  obtain ⟨live, entering, leaving, hlive, hlives, hreads, hpoints⟩ := he.exists_instructionLiveness
  obtain ⟨g, hg, hrecords⟩ := Interference.exists_ofLiveness he live
  have hnodes : ∀ v ∈ g.nodes, ∃ ty, table.type? v.symbol = some ty := by
    intro v hv
    refine htyped v ?_
    rcases hrecords.only hv with hv | ⟨id, hid, i, point, hmem, hv⟩ | ⟨first, hfirst, hv⟩
    · exact .inl hv
    · obtain ⟨done, rest, hsplit, hafter, hbefore⟩ := (mem_annotated (hpoints id hid)).1 hmem
      have hi : i ∈ f.instructionsOf id := by simp [hsplit]
      have hrest : ∀ j ∈ rest, j ∈ f.instructionsOf id := by
        intro j hj
        simp [hsplit, hj]
      have hlater : v ∈ point.after → f.Mentions v := fun h =>
        Function.mentions_of_mem_reads (hlives.mem_reads hreads hid hrest (hafter ▸ h))
      rcases hv with hv | hv | hv | hv
      · exact Function.mentions_of_mem_instructionsOf hi (.inl hv)
      · rw [hbefore, Instruction.mem_live] at hv
        rcases hv with hv | ⟨hv, -⟩
        · exact Function.mentions_of_mem_instructionsOf hi (.inl hv)
        · exact hlater hv
      · exact Function.mentions_of_mem_instructionsOf hi (.inr hv)
      · exact hlater hv
    · have hentry := Function.entry_mem_preorder he.entry
      rw [before_eq_entering hlives hentry (hpoints _ hentry) hfirst] at hv
      exact Function.mentions_of_mem_reads (hreads _ v hv)
  obtain ⟨p, hp, hplaces⟩ := exists_ofLiveness hg (fun v hv => hrecords.parameters hv) hnodes
  exact ⟨live, entering, leaving, g, p, hlive, hlives, hpoints, hrecords, hp, hplaces⟩

/-! ## Points -/

def Shares (p : Placement) (u v : Variable) : Prop :=
  ∃ location, location.isRegister = true ∧ p.locations[u]? = some location ∧
    p.locations[v]? = some location

/-- Variables that are live together in front of an instruction or behind it live in
different registers, and so does what the instruction writes. -/
structure Separates (p : Placement) (i : Instruction) (point : Point VariableSet) : Prop where
  before : ∀ u ∈ point.before, ∀ v ∈ point.before, u ≠ v → ¬ p.Shares u v
  after : ∀ u ∈ point.after, ∀ v ∈ point.after, u ≠ v → ¬ p.Shares u v
  written : ∀ d, i.definition = some d → ∀ v ∈ point.after, d ≠ v → ¬ p.Shares d v

theorem Places.not_shares {p : Placement} {g : Interference} (h : p.Places table f g)
    {u v : Variable} (hne : u ≠ v) (hclash : g.Clash u v) : ¬ p.Shares u v := by
  rintro ⟨location, hregister, hu, hv⟩
  exact h.apart hne hclash hregister hu hv

theorem Places.separates {p : Placement} {g : Interference}
    {live : Arena (List (Point VariableSet))} (hp : p.Places table f g)
    (hrecords : g.Records f live) {id : BlockId} (hid : id ∈ f.preorder) {leaving : VariableSet}
    (hpoints : (live.get? id).getD [] = f.liveness.pointsBackward leaving (f.instructionsOf id))
    (hclique : g.Clique ((f.instructionsOf id).foldr Instruction.live leaving)) {i : Instruction}
    {point : Point VariableSet} (hmem : (i, point) ∈ annotated f live id) :
    p.Separates i point := by
  obtain ⟨done, rest, hsplit, hafter, hbefore⟩ := (mem_annotated hpoints).1 hmem
  constructor
  · have h := hrecords.clique_of_append hid hpoints hclique hsplit
    rw [hbefore, hafter]
    exact fun u hu v hv hne => hp.not_shares hne (h u hu v hv hne)
  · rw [List.append_cons] at hsplit
    have h := hrecords.clique_of_append hid hpoints hclique hsplit
    rw [hafter]
    exact fun u hu v hv hne => hp.not_shares hne (h u hu v hv hne)
  · exact fun d hd v hv hne => hp.not_shares hne (hrecords.written hid hmem hd hv hne)

/-- Register allocation is safe: it succeeds on every function whose links stay
within it, whose blocks start with their labels, whose exit is reached and is not the
entry, and whose variables have types, and variables that are live together never
share a register. -/
theorem separates_ofFunction (he : f.Enclosed)
    (hlabel : ∀ j block, f.block? j = some block →
      block.instructions.head? = some (.label j))
    (hne : f.entry ≠ f.exit) (hexit : f.Reachable f.exit)
    (htyped : ∀ v, f.Mentions v → ∃ ty, table.type? v.symbol = some ty) :
    ∃ order live p, f.order = .ok order ∧ f.instructionLiveness = .ok live ∧
      ofFunction table f = .ok p ∧ ∀ id ∈ order, ∃ points, live.get? id = some points ∧
        List.Forall₂ p.Separates (f.instructionsOf id) points := by
  obtain ⟨live, entering, leaving, g, p, hlive, hlives, hpoints, hrecords, hp, hplaces⟩ :=
    exists_places he htyped
  have hfirst : ∀ id < f.blocks.size, f.instructionsOf id ≠ [] := by
    intro id hid
    obtain ⟨block, hb⟩ := Function.exists_block? hid
    rw [Function.instructionsOf_of_block? hb]
    exact List.ne_nil_of_mem (List.mem_of_mem_head? (hlabel id block hb))
  refine ⟨f.preorder, live, p, he.order, hlive, ?_, fun id hid => ?_⟩
  · rw [ofFunction, hlive, bind_ok]
    exact hp
  · have hstart : (f.instructionsOf id).foldr Instruction.live (leaving id) = entering id :=
      (hlives.entering_eq hid).symm
    have hclique : g.Clique (entering id) :=
      hrecords.clique_entering he hne hexit (hfirst _ he.entry) hlives hpoints hid
    have hlength := f.liveness.length_pointsBackward (leaving id) (f.instructionsOf id)
    obtain ⟨points, hget⟩ : ∃ points, live.get? id = some points := by
      cases hget : live.get? id with
      | some points => exact ⟨points, rfl⟩
      | none =>
          have hlt := Function.lt_size_of_mem_preorder he.exit hid
          have hnil := hpoints id hid
          rw [hget] at hnil
          rw [← hnil] at hlength
          exact absurd (List.length_eq_zero_iff.1 hlength.symm) (hfirst id hlt)
    refine ⟨points, hget, List.forall₂_iff_zip.2 ⟨?_, fun {i point} hmem => ?_⟩⟩
    · rw [← hlength, ← hpoints id hid, hget]
      rfl
    · refine hplaces.separates hrecords hid (hpoints id hid) (hstart ▸ hclique) ?_
      rw [annotated, hget]
      exact hmem

/-! ## A loop -/

def spinSymbols : SymbolTable :=
  ⟨.ofList [⟨"a", .var (some Ty.u8) .parameter⟩, ⟨"b", .var (some Ty.u8) .user⟩,
    ⟨"c", .var (some .bool) .temporary⟩]⟩

/-- A loop that compares its parameter with a variable that is never written. -/
def spin : Function :=
  { symbol := 0, name := "spin", parameters := [⟨0, 0⟩], returnType := some Ty.u8,
    entry := 0, exit := 1,
    blocks := .ofList [⟨[.label 0], some 2, none⟩,
      ⟨[.label 1, .ret (some (.var ⟨1, 0⟩, Ty.u8))], none, none⟩,
      ⟨[.label 2, .binary ⟨2, 0⟩ (.var ⟨0, 0⟩) .less (.var ⟨1, 0⟩) Ty.u8 .bool,
        .branch (.var ⟨2, 0⟩) 2], some 1, some 2⟩] }

theorem lt_of_block?_spin {j : BlockId} {block : Flow.Block} (hb : spin.block? j = some block) :
    j < 3 := by
  obtain ⟨hlt, -⟩ := Array.getElem?_eq_some_iff.1 hb
  exact hlt

theorem enclosed_spin : spin.Enclosed := by
  refine ⟨by decide, by decide, fun {id n} hn => ?_⟩
  have hinside : ∀ id < 3, ∀ n ∈ spin.successorsOf id, n < 3 := by decide
  obtain ⟨block, hb, -⟩ := Function.exists_block?_of_edge hn
  exact hinside id (lt_of_block?_spin hb) n hn

theorem typed_spin (v : Variable) (h : spin.Mentions v) :
    ∃ ty, spinSymbols.type? v.symbol = some ty := by
  have hparameters : ∀ v ∈ spin.parameters, (spinSymbols.type? v.symbol).isSome = true := by decide
  have hinstructions : ∀ j < 3, ∀ i ∈ spin.instructionsOf j, ∀ v ∈ i.uses ++ i.definition.toList,
      (spinSymbols.type? v.symbol).isSome = true := by decide
  apply Option.isSome_iff_exists.1
  rcases h with h | ⟨j, block, hb, i, hi, h⟩
  · exact hparameters v h
  · refine hinstructions j (lt_of_block?_spin hb) i ?_ v ?_
    · rw [Function.instructionsOf_of_block? hb]
      exact hi
    · rw [List.mem_append, Option.mem_toList]
      exact h

theorem separates_ofFunction_spin :
    spin.Enclosed ∧ spin.Reachable spin.exit ∧
      ∃ p, ofFunction spinSymbols spin = .ok p ∧ ¬ p.Shares ⟨1, 0⟩ ⟨2, 0⟩ := by
  have hlabel : ∀ j block, spin.block? j = some block →
      block.instructions.head? = some (.label j) := by
    have h : ∀ j < 3, (spin.instructionsOf j).head? = some (.label j) := by decide
    intro j block hb
    rw [← Function.instructionsOf_of_block? hb]
    exact h j (lt_of_block?_spin hb)
  have hexit : spin.Reachable spin.exit := by
    have hfirst : 2 ∈ spin.successorsOf 0 := by decide
    have hsecond : 1 ∈ spin.successorsOf 2 := by decide
    exact .tail (.single hfirst) hsecond
  have hlive : (spin.instructionLiveness.toOption.bind fun live => (live.get? 2).bind fun points =>
      points.getLast?.map fun point => point.before.toList) =
      some [⟨0, 0⟩, ⟨1, 0⟩, ⟨2, 0⟩] := by
    decide +kernel
  obtain ⟨order, live, p, horder, hlives, hp, h⟩ :=
    separates_ofFunction enclosed_spin hlabel (by decide) hexit typed_spin
  have hmem : 2 ∈ order := by
    rw [enclosed_spin.order] at horder
    cases horder
    decide +kernel
  obtain ⟨points, hpoints, hforall⟩ := h 2 hmem
  rw [hlives, Except.toOption, Option.bind_some, hpoints, Option.bind_some] at hlive
  obtain ⟨point, hlast, hbefore⟩ := Option.map_eq_some_iff.1 hlive
  obtain ⟨i, hi, hseparates⟩ := forall₂_exists_left hforall (List.mem_of_getLast? hlast)
  refine ⟨enclosed_spin, hexit, p, hp, hseparates.before _ ?_ _ ?_ (by decide)⟩
  · rw [← Std.ExtTreeSet.mem_toList, hbefore]
    decide
  · rw [← Std.ExtTreeSet.mem_toList, hbefore]
    decide

end Placement

end Cinder
