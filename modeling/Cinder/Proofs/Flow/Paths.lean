import Cinder.Proofs.Flow.Liveness

/-!
# Liveness along paths

What the analysis of live variables finds is what its name says: a variable is live at
a point just if some path from there comes to an instruction that reads it, and no
instruction on the way writes it.  A path runs through instructions to the end of a block
and goes on at the start of a block behind it.
-/

namespace Cinder.Flow

namespace Function

/-- The instructions that control may run through from a point of a block, which has `n`
instructions of the block behind it. -/
inductive Path (f : Function) : BlockId → Nat → List Instruction → Prop where
  | stop {id n} : f.Path id n []
  | step {id n i path} : (f.instructionsOf id)[n]? = some i → f.Path id (n + 1) path →
      f.Path id n (i :: path)
  | link {id n next path} : n = (f.instructionsOf id).length → f.Edge id next →
      f.Path next 0 path → f.Path id n path

/-- Some path from a point reads a variable before it writes it. -/
def ReadAhead (f : Function) (id : BlockId) (n : Nat) (v : Variable) : Prop :=
  ∃ (path : List Instruction) (i : Instruction), f.Path id n (path ++ [i]) ∧ v ∈ i.uses ∧
    ∀ j ∈ path, j.definition ≠ some v

variable {f : Function} {id : BlockId} {n : Nat} {v : Variable}

/-! ## One step of a path -/

theorem readAhead_of_uses {i : Instruction} (hi : (f.instructionsOf id)[n]? = some i)
    (hv : v ∈ i.uses) : f.ReadAhead id n v :=
  ⟨[], i, .step hi .stop, hv, by simp⟩

theorem ReadAhead.step {i : Instruction} (h : f.ReadAhead id (n + 1) v)
    (hi : (f.instructionsOf id)[n]? = some i) (hv : i.definition ≠ some v) :
    f.ReadAhead id n v := by
  obtain ⟨path, j, hpath, huse, hclear⟩ := h
  refine ⟨i :: path, j, .step hi hpath, huse, ?_⟩
  rw [List.forall_mem_cons]
  exact ⟨hv, hclear⟩

theorem ReadAhead.link {next : BlockId} (h : f.ReadAhead next 0 v) (hedge : f.Edge id next) :
    f.ReadAhead id (f.instructionsOf id).length v := by
  obtain ⟨path, j, hpath, huse, hclear⟩ := h
  exact ⟨path, j, .link rfl hedge hpath, huse, hclear⟩

/-! ## Instructions of a block -/

/-- What is live before the last instructions of a block is read ahead of them, if what
is live at the end of the block is. -/
theorem readAhead_of_mem_foldr_live {s : VariableSet}
    (hs : ∀ v ∈ s, f.ReadAhead id (f.instructionsOf id).length v) {rest : List Instruction}
    (hrest : (f.instructionsOf id).drop n = rest) (hn : n ≤ (f.instructionsOf id).length)
    (hv : v ∈ rest.foldr Instruction.live s) : f.ReadAhead id n v := by
  induction rest generalizing n v with
  | nil =>
    have hlength : (f.instructionsOf id).length = n :=
      le_antisymm (List.drop_eq_nil_iff.1 hrest) hn
    rw [← hlength]
    exact hs v hv
  | cons i rest ih =>
    have hi : (f.instructionsOf id)[n]? = some i := by
      rw [← List.head?_drop, hrest, List.head?_cons]
    have htail : (f.instructionsOf id).drop (n + 1) = rest := by
      rw [← List.tail_drop, hrest, List.tail_cons]
    rcases Instruction.mem_live.1 hv with huse | ⟨hv, hdefinition⟩
    · exact readAhead_of_uses hi huse
    · have hlt : n < (f.instructionsOf id).length := (List.getElem?_eq_some_iff.1 hi).1
      exact (ih htail hlt hv).step hi hdefinition

/-! ## Blocks of a function -/

variable {entering leaving : BlockId → VariableSet}

/-- No variable is live without a path that reads it: those that are read ahead satisfy
the equations, and live sets are the least that do. -/
theorem Lives.readAhead (h : f.Lives entering leaving) {id : BlockId} (hv : v ∈ entering id) :
    f.ReadAhead id 0 v := by
  classical
  let bound : BlockId → VariableSet := fun id =>
    (entering id).filter fun v => decide (f.ReadAhead id 0 v)
  have hbound : ∀ {id v}, v ∈ bound id ↔ v ∈ entering id ∧ f.ReadAhead id 0 v := by
    intro id v
    simp [bound, Std.ExtTreeSet.mem_filter]
  refine (hbound.1 (h.least ?_ id v hv)).2
  intro id hid v hv
  have hbehind : ∀ v ∈ (f.successorsOf id).foldl (fun s n => s ∪ bound n) ∅,
      v ∈ leaving id ∧ f.ReadAhead id (f.instructionsOf id).length v := by
    intro v hv
    rcases (mem_foldl_union bound _ _).1 hv with hv | ⟨next, hnext, hv⟩
    · exact absurd hv Std.ExtTreeSet.not_mem_empty
    · obtain ⟨hentering, hread⟩ := hbound.1 hv
      exact ⟨(h.leaving_iff hid).2 ⟨next, hnext, hentering⟩, hread.link hnext⟩
  apply hbound.2
  constructor
  · rw [h.entering_eq hid]
    exact Instruction.foldr_live_mono _ (fun v hv => (hbehind v hv).1) v hv
  · exact readAhead_of_mem_foldr_live (fun v hv => (hbehind v hv).2) rfl (Nat.zero_le _) hv

section

variable (h : f.Lives entering leaving)
  (hclosed : ∀ {id next}, id ∈ f.preorder → f.Edge id next → next ∈ f.preorder)

include h hclosed

/-- What a path reads before it writes it is live where the path starts. -/
theorem Lives.mem_of_path {path : List Instruction} (hpath : f.Path id n path)
    (hid : id ∈ f.preorder) {before : List Instruction} {i : Instruction}
    (hsplit : path = before ++ [i]) (huse : v ∈ i.uses)
    (hclear : ∀ j ∈ before, j.definition ≠ some v) :
    v ∈ ((f.instructionsOf id).drop n).foldr Instruction.live (leaving id) := by
  induction hpath generalizing before with
  | stop => simp at hsplit
  | @step id n j path hj _ ih =>
    obtain ⟨hlt, rfl⟩ := List.getElem?_eq_some_iff.1 hj
    rw [List.drop_eq_getElem_cons hlt, List.foldr_cons, Instruction.mem_live]
    cases before with
    | nil =>
      obtain ⟨rfl, -⟩ := List.cons.inj hsplit
      exact .inl huse
    | cons k before =>
      obtain ⟨rfl, htail⟩ := List.cons.inj hsplit
      rw [List.forall_mem_cons] at hclear
      exact .inr ⟨ih hid htail hclear.2, hclear.1⟩
  | @link id n next path hn hedge _ ih =>
    have hnext := hclosed hid hedge
    rw [hn, List.drop_length, List.foldr_nil, h.leaving_iff hid]
    refine ⟨next, hedge, ?_⟩
    rw [h.entering_eq hnext]
    exact ih hnext hsplit hclear

theorem Lives.mem_foldr_live_iff (hid : id ∈ f.preorder) (hn : n ≤ (f.instructionsOf id).length) :
    v ∈ ((f.instructionsOf id).drop n).foldr Instruction.live (leaving id) ↔
      f.ReadAhead id n v := by
  constructor
  · apply readAhead_of_mem_foldr_live _ rfl hn
    intro v hv
    obtain ⟨next, hnext, hv⟩ := (h.leaving_iff hid).1 hv
    exact (h.readAhead hv).link hnext
  · rintro ⟨path, i, hpath, huse, hclear⟩
    exact h.mem_of_path hclosed hpath hid rfl huse hclear

end

end Function

/-! ## Points of a block -/

theorem Analysis.getElem?_pointsBackward {σ : Type} (a : Analysis σ) (state : σ)
    (l : List Instruction) (n : Nat) :
    (a.pointsBackward state l)[n]? = l[n]?.map fun _ =>
      ⟨(l.drop n).foldr a.transfer state, (l.drop (n + 1)).foldr a.transfer state⟩ := by
  induction l generalizing n with
  | nil => simp [pointsBackward]
  | cons i rest ih =>
    cases n with
    | zero => simp [pointsBackward, before_pointsBackward]
    | succ n => simpa [pointsBackward] using ih n

namespace Function

variable {f : Function}

/-- Blocks of the order lead to blocks of the order if the exit leads nowhere. -/
theorem Enclosed.mem_preorder_of_edge (he : f.Enclosed) (hexit : f.successorsOf f.exit = [])
    {id next : BlockId} (hid : id ∈ f.preorder) (hedge : f.Edge id next) : next ∈ f.preorder := by
  refine mem_preorder_of_successor ((mem_preorder_of_ne ?_).1 hid) hedge (he.successors hedge)
  rintro rfl
  rw [Edge, hexit] at hedge
  cases hedge

/-- A variable is live before and after an instruction just if some path from there
reads it before it writes it. -/
theorem exists_live_iff_readAhead (he : f.Enclosed) (hexit : f.successorsOf f.exit = []) :
    ∃ order live, f.order = .ok order ∧ f.instructionLiveness = .ok live ∧
      ∀ id ∈ order, ∀ n < (f.instructionsOf id).length, ∃ points point,
        live.get? id = some points ∧ points[n]? = some point ∧ ∀ v,
          (v ∈ point.before ↔ f.ReadAhead id n v) ∧
          (v ∈ point.after ↔ f.ReadAhead id (n + 1) v) := by
  obtain ⟨live, entering, leaving, hlive, hlives, -, hpoints⟩ := he.exists_instructionLiveness
  refine ⟨f.preorder, live, he.order, hlive, fun id hid n hn => ?_⟩
  have hpoint := f.liveness.getElem?_pointsBackward (leaving id) (f.instructionsOf id) n
  rw [← hpoints id hid, List.getElem?_eq_getElem hn, Option.map_some] at hpoint
  have hiff : ∀ {v n}, n ≤ (f.instructionsOf id).length →
      (v ∈ ((f.instructionsOf id).drop n).foldr Instruction.live (leaving id) ↔
        f.ReadAhead id n v) :=
    hlives.mem_foldr_live_iff (he.mem_preorder_of_edge hexit) hid
  cases hget : live.get? id with
  | none => simp [hget] at hpoint
  | some points =>
      rw [hget, Option.getD_some] at hpoint
      exact ⟨points, _, rfl, hpoint, fun v => ⟨hiff hn.le, hiff hn⟩⟩

/-- A loop that adds up its own counter: the body reads and writes both variables. -/
def counting : Function where
  symbol := 0
  name := "counting"
  returnType := none
  entry := 0
  exit := 1
  blocks := .ofList [
    ⟨[.label 0], some 2, none⟩,
    ⟨[.label 1, .ret (some (.var ⟨2, 0⟩, Ty.s32))], none, none⟩,
    ⟨[.label 2, .binary ⟨2, 0⟩ (.var ⟨2, 0⟩) .add (.var ⟨1, 0⟩) Ty.s32 Ty.s32,
      .binary ⟨1, 0⟩ (.var ⟨1, 0⟩) .less (.var ⟨2, 0⟩) Ty.s32 .bool,
      .branch (.var ⟨1, 0⟩) 2], some 1, some 2⟩]

theorem enclosed_counting : counting.Enclosed :=
  .of_forall (by decide) (by decide) (by decide)

/-- Behind the last instruction of the loop its counter is live, for the next round. -/
theorem exists_live_iff_readAhead_counting :
    counting.Enclosed ∧ counting.successorsOf counting.exit = [] ∧
      counting.ReadAhead 2 4 ⟨1, 0⟩ := by
  refine ⟨enclosed_counting, rfl, ?_⟩
  have hlast : (counting.instructionLiveness.toOption.bind fun live =>
      (live.get? 2).bind fun points => points[3]?.map fun point => point.after.contains ⟨1, 0⟩) =
      some true := by
    decide +kernel
  have horder : counting.order.toOption = some [0, 2, 1] := by decide +kernel
  obtain ⟨order, live, hget, hlive, hpoints⟩ := exists_live_iff_readAhead enclosed_counting rfl
  rw [hget] at horder
  obtain rfl : order = [0, 2, 1] := Option.some.inj horder
  obtain ⟨points, point, hpoint, hget', hiff⟩ := hpoints 2 (by decide) 3 (by decide)
  rw [hlive] at hlast
  simp only [Except.toOption, Option.bind_some, hpoint, hget', Option.map_some,
    Option.some.injEq] at hlast
  exact (hiff ⟨1, 0⟩).2.1 (Std.ExtTreeSet.mem_iff_contains.2 hlast)

end Function

end Cinder.Flow
