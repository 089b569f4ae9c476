import Cinder.Flow.Liveness
import Cinder.Proofs.Flow.Dataflow

/-!
# Live variables

The analysis of live variables has a solution: the variables live at the end of a
block are those live at the start of a block behind it, and inside of a block every
instruction adds what it reads to what it does not write.
-/

namespace Cinder.Flow

namespace Instruction

variable {s t : VariableSet} {v : Variable} {instructions : List Instruction}

theorem live_mono (i : Instruction) (h : ∀ v ∈ s, v ∈ t) : ∀ v ∈ i.live s, v ∈ i.live t := by
  intro v hv
  rw [mem_live] at hv ⊢
  exact hv.imp id fun hv => ⟨h v hv.1, hv.2⟩

theorem foldr_live_mono (instructions : List Instruction) (h : ∀ v ∈ s, v ∈ t) :
    ∀ v ∈ instructions.foldr live s, v ∈ instructions.foldr live t := by
  induction instructions with
  | nil => exact h
  | cons i rest ih => exact i.live_mono ih

/-- What is live before some instructions is read by them or live behind them. -/
theorem mem_uses_of_mem_foldr_live (h : v ∈ instructions.foldr live s) :
    v ∈ s ∨ ∃ i ∈ instructions, v ∈ i.uses := by
  induction instructions with
  | nil => exact .inl h
  | cons i rest ih =>
    rcases mem_live.1 h with huse | ⟨hrest, -⟩
    · exact .inr ⟨i, List.mem_cons_self, huse⟩
    · refine (ih hrest).imp id ?_
      rintro ⟨j, hj, huse⟩
      exact ⟨j, List.mem_cons_of_mem _ hj, huse⟩

end Instruction

/-! ## Points of a block -/

attribute [ext] Point

section Points

variable {σ : Type} (a : Analysis σ) {state : σ} {i : Instruction} {point : Point σ}

theorem before_pointsBackward (state : σ) (l : List Instruction) :
    (a.pointsBackward state l).head?.elim state Point.before = l.foldr a.transfer state := by
  induction l with
  | nil => rfl
  | cons i rest ih => exact congrArg (a.transfer i) ih

theorem Analysis.length_pointsBackward (state : σ) (l : List Instruction) :
    (a.pointsBackward state l).length = l.length := by
  induction l with
  | nil => rfl
  | cons i rest ih => exact congrArg (· + 1) ih

/-- The points of a list, each with the instruction that it is about. -/
theorem mem_zip_pointsBackward {l : List Instruction} :
    (i, point) ∈ l.zip (a.pointsBackward state l) ↔
      ∃ before after, l = before ++ i :: after ∧ point.after = after.foldr a.transfer state ∧
        point.before = a.transfer i point.after := by
  induction l with
  | nil => simp
  | cons j rest ih =>
    rw [Analysis.pointsBackward, List.zip_cons_cons, List.mem_cons, ih, before_pointsBackward]
    constructor
    · rintro (h | ⟨before, after, rfl, hafter, hbefore⟩)
      · cases h
        exact ⟨[], rest, rfl, rfl, rfl⟩
      · exact ⟨j :: before, after, rfl, hafter, hbefore⟩
    · rintro ⟨_ | ⟨k, before⟩, after, hl, hafter, hbefore⟩
      · cases hl
        rw [hafter] at hbefore
        exact .inl (Prod.ext rfl (Point.ext hbefore hafter))
      · cases hl
        exact .inr ⟨before, after, rfl, hafter, hbefore⟩

end Points

namespace Function

variable {f : Function} {id : BlockId} {v : Variable}

theorem mem_reads {i : Instruction} (hi : i ∈ f.instructionsOf id) (hv : v ∈ i.uses) :
    v ∈ f.reads := by
  unfold instructionsOf at hi
  cases hb : f.block? id with
  | none => simp [hb] at hi
  | some block =>
    simp only [hb, Option.elim] at hi
    refine List.mem_flatMap.2 ⟨block, ?_, List.mem_flatMap.2 ⟨i, hi, hv⟩⟩
    exact Array.mem_toList_iff.2 (Array.mem_of_getElem? hb)

/-- A set that misses fewer of the reads has room to grow less often. -/
theorem countP_not_mem_lt {reads : List Variable} {s t : VariableSet}
    (ht : ∀ v ∈ t, v ∈ reads) (hle : ∀ v ∈ s, v ∈ t) (hne : s ≠ t) :
    reads.countP (· ∉ t) < reads.countP (· ∉ s) := by
  obtain ⟨v, hvt, hvs⟩ : ∃ v ∈ t, v ∉ s := by
    by_contra hnone
    refine hne (Std.ExtTreeSet.ext_mem fun v => ⟨hle v, fun hv => ?_⟩)
    by_contra hvs
    exact hnone ⟨v, hv, hvs⟩
  have hmono : ∀ l : List Variable, l.countP (· ∉ t) ≤ l.countP (· ∉ s) := fun l =>
    List.countP_mono_left fun u _ hu => decide_eq_true (mt (hle u) (of_decide_eq_true hu))
  obtain ⟨before, after, rfl⟩ := List.append_of_mem (ht v hvt)
  have hbefore := hmono before
  have hafter := hmono after
  rw [List.countP_append, List.countP_append, List.countP_cons_of_neg (by simpa using hvt),
    List.countP_cons_of_pos (by simpa using hvs)]
  omega

theorem grows_liveness (f : Function) :
    f.liveness.Grows f (fun s => ∀ v ∈ s, v ∈ f.reads) (fun s t => ∀ v ∈ s, v ∈ t)
      (fun s => f.reads.countP (· ∉ s)) where
  refl _ _ := id
  trans hst htu v hv := htu v (hst v hv)
  valid_bottom v hv := absurd hv Std.ExtTreeSet.not_mem_empty
  valid_boundary v hv := absurd hv Std.ExtTreeSet.not_mem_empty
  valid_merge hs ht v hv := (Std.ExtTreeSet.mem_union_iff.1 hv).elim (hs v) (ht v)
  valid_transferAll id hs v hv := by
    rcases Instruction.mem_uses_of_mem_foldr_live hv with hv | ⟨i, hi, hv⟩
    · exact hs v hv
    · exact mem_reads hi hv
  bottom_le _ v hv := absurd hv Std.ExtTreeSet.not_mem_empty
  merge_mono hs ht v hv := Std.ExtTreeSet.mem_union_iff.2
    ((Std.ExtTreeSet.mem_union_iff.1 hv).imp (hs v) (ht v))
  transferAll_mono id hle := Instruction.foldr_live_mono _ hle
  gap_lt _ ht hle hne := countP_not_mem_lt ht hle hne
  gap_bottom := List.countP_le_length

/-! ## Equations -/

/-- The least sets of variables that satisfy the equations of liveness at both ends of
every block of the order. -/
structure Lives (f : Function) (entering leaving : BlockId → VariableSet) : Prop where
  leaving_iff : ∀ {id v}, id ∈ f.preorder →
    (v ∈ leaving id ↔ ∃ n ∈ f.successorsOf id, v ∈ entering n)
  entering_eq : ∀ {id}, id ∈ f.preorder →
    entering id = (f.instructionsOf id).foldr Instruction.live (leaving id)
  outside : ∀ {id}, id ∉ f.preorder → entering id = ∅ ∧ leaving id = ∅
  least : ∀ {bound : BlockId → VariableSet}, (∀ id ∈ f.preorder, ∀ v ∈ (f.instructionsOf id).foldr
    Instruction.live ((f.successorsOf id).foldl (fun s n => s ∪ bound n) ∅), v ∈ bound id) →
    ∀ id, ∀ v ∈ entering id, v ∈ bound id

theorem mem_foldl_union {α : Type} (live : α → VariableSet) (l : List α) (s : VariableSet) :
    v ∈ l.foldl (fun s a => s ∪ live a) s ↔ v ∈ s ∨ ∃ a ∈ l, v ∈ live a := by
  induction l generalizing s with
  | nil => simp
  | cons a l ih =>
    rw [List.foldl_cons, ih, Std.ExtTreeSet.mem_union_iff, or_assoc, List.exists_mem_cons_iff]

theorem lives_of_revised {solution : Solution VariableSet} {valid : VariableSet → Prop}
    (h : f.liveness.Revised f valid (fun s t => ∀ v ∈ s, v ∈ t)
      ⟨f.exit, f.successorsOf, f.leadingTo⟩ f.preorder [] solution) :
    f.Lives (f.liveness.stateAt solution.leaving) (f.liveness.stateAt solution.entering) where
  leaving_iff {id v} hid := by
    have hstart : v ∉ (if id = f.exit then f.liveness.boundary else f.liveness.bottom) := by
      split <;> exact Std.ExtTreeSet.not_mem_empty
    rw [(h.equations id hid).1]
    refine (mem_foldl_union _ _ _).trans ⟨fun hv => ?_, .inr⟩
    exact hv.resolve_left hstart
  entering_eq hid := (h.equations _ hid).2
  outside hid := ⟨h.outside _ hid, h.unentered _ hid⟩
  least {bound} hbound := by
    apply h.least
    intro id hid v hv
    apply hbound id hid v
    have hstart : (if id = f.exit then f.liveness.boundary else f.liveness.bottom) = ∅ := by
      split <;> rfl
    rw [Analysis.leavingFrom, Analysis.enteringFrom, hstart] at hv
    exact hv

/-- The analysis of live variables gives two sets for every block of a function whose
links stay within it. -/
theorem Enclosed.exists_blockLiveness (he : f.Enclosed) :
    ∃ states entering leaving, f.blockLiveness = .ok states ∧ f.Lives entering leaving ∧
      ∀ id < f.blocks.size, states.inputs.get? id = some (entering id) ∧
        states.outputs.get? id = some (leaving id) := by
  obtain ⟨solution, hsolve, h⟩ := f.liveness.exists_solve_backward f.grows_liveness he rfl
  refine ⟨_, _, _, hsolve, lives_of_revised h, fun id hid => ⟨?_, ?_⟩⟩
  · exact f.liveness.get?_eq_stateAt (h.leaving_size.symm ▸ hid)
  · exact f.liveness.get?_eq_stateAt (h.entering_size.symm ▸ hid)

/-- The analysis of live variables succeeds on every function whose links stay within
it. -/
theorem Enclosed.exists_instructionLiveness (he : f.Enclosed) :
    ∃ live entering leaving, f.instructionLiveness = .ok live ∧ f.Lives entering leaving ∧
      (∀ id, ∀ v ∈ entering id, v ∈ f.reads) ∧
      ∀ id ∈ f.preorder, (live.get? id).getD [] =
        f.liveness.pointsBackward (leaving id) (f.instructionsOf id) := by
  obtain ⟨solution, hsolve, h⟩ := f.liveness.exists_solve_backward f.grows_liveness he rfl
  refine ⟨.ofList (f.blocks.handles.map fun id =>
    if id ∈ f.preorder then f.liveness.pointsOf f ⟨solution.leaving, solution.entering⟩ id
      else []), _, _, ?_, lives_of_revised h, h.valid_leaving, ?_⟩
  · rw [instructionLiveness, blockLiveness, hsolve, bind_ok, Analysis.points, he.order, bind_ok]
    rfl
  · intro id hid
    have hlt := lt_size_of_mem_preorder he.exit hid
    simp [Arena.get?, Arena.ofList, Arena.handles, hlt, hid, Analysis.pointsOf, liveness]

end Function

end Cinder.Flow
