import Cinder.Proofs.Flow.Lowering

/-!
# Drafts grow into functions

Lowering appends to the current block and touches no other, so the blocks of a
draft are the beginnings of the blocks of the function, and blocks that are closed
stay as they are.
-/

namespace Cinder.Flow

/-! ## Growing functions -/

/-- The second function has all blocks of the first one; one of them may have more
instructions. -/
def Function.GrowsAt (id : BlockId) (f f' : Function) : Prop :=
  ∀ j block, f.block? j = some block → ∃ block', f'.block? j = some block' ∧
    block.instructions <+: block'.instructions ∧ (j ≠ id → block' = block)

namespace Function.GrowsAt

variable {id : BlockId} {f f' f'' : Function}

theorem refl (id : BlockId) (f : Function) : f.GrowsAt id f :=
  fun _ block hb => ⟨block, hb, List.prefix_rfl, fun _ => rfl⟩

theorem trans (h : f.GrowsAt id f') (h' : f'.GrowsAt id f'') : f.GrowsAt id f'' := by
  intro j block hb
  obtain ⟨block', hb', hprefix, hsame⟩ := h j block hb
  obtain ⟨block'', hb'', hprefix', hsame'⟩ := h' j block' hb'
  exact ⟨block'', hb'', hprefix.trans hprefix', fun hj => (hsame' hj).trans (hsame hj)⟩

theorem modify (f : Function) (id : BlockId) {change : Block → Block}
    (h : ∀ block : Block, block.instructions <+: (change block).instructions) :
    f.GrowsAt id (f.modifyBlock id change) := by
  intro j block hb
  by_cases hj : j = id
  · subst hj
    refine ⟨change block, ?_, h block, fun hne => absurd rfl hne⟩
    rw [block?_modifyBlock hb, if_pos rfl]
  · refine ⟨block, ?_, List.prefix_rfl, fun _ => rfl⟩
    rcases f.modifyBlock_cases id change with heq | ⟨old, hold, -⟩
    · rw [heq]
      exact hb
    · rw [block?_modifyBlock hold, if_neg hj]
      exact hb

theorem addBlock (f : Function) (id : BlockId) (hfit : f.blocks.size < UInt32.size) :
    f.GrowsAt id f.addBlock := by
  intro j block hb
  refine ⟨block, ?_, List.prefix_rfl, fun _ => rfl⟩
  rw [block?_addBlock_of_lt hfit (lt_size_of_block? hb)]
  exact hb

end Function.GrowsAt

namespace Draft

theorem growsAt_emit (draft : Draft) (l : List Instruction) :
    draft.function.GrowsAt draft.current (draft.emit l).function :=
  Function.GrowsAt.modify _ _ fun _ => List.prefix_append ..

theorem growsAt_jump (draft : Draft) (target : BlockId) :
    draft.function.GrowsAt draft.current (draft.jump target).function := by
  rw [function_jump]
  exact Function.GrowsAt.modify _ _ fun _ => List.prefix_append ..

theorem growsAt_jumpIfOpen (draft : Draft) (target : BlockId) :
    draft.function.GrowsAt draft.current (draft.jumpIfOpen target).function := by
  rw [jumpIfOpen]
  split
  · exact .refl _ _
  · exact draft.growsAt_jump target

theorem growsAt_fork (draft : Draft) (condition : Operand)
    (hfit : draft.function.blocks.size + 3 ≤ UInt32.size) :
    draft.function.GrowsAt draft.current (draft.fork condition).function := by
  have hsize₁ := draft.function.size_addBlock
  have hsize₂ := draft.function.addBlock.size_addBlock
  have hgrows₁ := Function.GrowsAt.addBlock draft.function draft.current (by omega)
  have hgrows₂ := Function.GrowsAt.addBlock draft.function.addBlock draft.current (by omega)
  have hgrows₃ :=
    Function.GrowsAt.addBlock draft.function.addBlock.addBlock draft.current (by omega)
  refine ((hgrows₁.trans hgrows₂).trans hgrows₃).trans ?_
  simp only [fork, enter, function_split]
  exact Function.GrowsAt.modify _ _ fun _ => List.prefix_append ..

end Draft

/-! ## Closed blocks -/

namespace Stage

/-- Whether a block is not going to change any more. -/
def Closed (s : Stage) (j : BlockId) : Prop :=
  j ∉ s.draft.function.exit :: s.pending ∧ (s.isOpen = true → j ≠ s.draft.current)

structure GrowsInto (s : Stage) (f : Function) : Prop where
  exit : f.exit = s.draft.function.exit
  blocks : ∀ {j block}, s.draft.function.block? j = some block →
    ∃ block', f.block? j = some block' ∧
    block.instructions <+: block'.instructions ∧ (s.Closed j → block' = block)

variable {s s' : Stage} {f : Function} {pending : List BlockId} {draft : Draft}

theorem GrowsInto.of_growsAt (h : s'.GrowsInto f)
    (hexit : s'.draft.function.exit = s.draft.function.exit)
    (hgrows : s.draft.function.GrowsAt s.draft.current s'.draft.function) (hopen : s.isOpen = true)
    (hclosed : ∀ {j}, j < s.draft.function.blocks.size → s.Closed j → s'.Closed j) :
    s.GrowsInto f := by
  refine ⟨h.exit.trans hexit, fun {j block} hb => ?_⟩
  obtain ⟨block', hb', hprefix, hsame⟩ := hgrows j block hb
  obtain ⟨block'', hb'', hprefix', hsame'⟩ := h.blocks hb'
  refine ⟨block'', hb'', hprefix.trans hprefix', fun hj => ?_⟩
  rw [hsame' (hclosed (Function.lt_size_of_block? hb) hj), hsame (hj.2 hopen)]

/-- Going on to a block that waits closes no block but the current one. -/
theorem Closed.join {id : BlockId} {draft' : Draft} {isOpen : Bool} {j : BlockId}
    (h : Stage.Closed ⟨id :: pending, draft, isOpen⟩ j)
    (hexit : draft'.function.exit = draft.function.exit) (hcurrent : draft'.current = id) :
    Stage.Closed ⟨pending, draft', true⟩ j := by
  have hmem : j ∉ draft.function.exit :: id :: pending := h.1
  simp only [List.mem_cons, not_or] at hmem
  refine ⟨?_, fun _ => ?_⟩
  · simp only [List.mem_cons, not_or, hexit]
    exact ⟨hmem.1, hmem.2.2⟩
  · rw [hcurrent]
    exact hmem.2.1

theorem GrowsInto.of_extend {l : List Instruction} {supply : Supply}
    (hf : Stage.GrowsInto ⟨pending, draft.extend l supply, true⟩ f) :
    Stage.GrowsInto ⟨pending, draft, true⟩ f := by
  have hexit := draft.exit_extend l supply
  refine hf.of_growsAt hexit (draft.growsAt_emit _) rfl fun _ hj => ⟨?_, hj.2⟩
  have hmem := hj.1
  rwa [← hexit] at hmem

theorem GrowsInto.of_fork {condition : Operand}
    (hfit : draft.function.blocks.size + 3 ≤ UInt32.size)
    (hf : Stage.GrowsInto ⟨draft.forkTargets.2.1 :: draft.forkTargets.2.2 :: pending,
      draft.fork condition, true⟩ f) :
    Stage.GrowsInto ⟨pending, draft, true⟩ f := by
  have hexit := draft.exit_fork condition
  have htargets := Draft.forkTargets_eq hfit
  refine hf.of_growsAt hexit (draft.growsAt_fork _ hfit) rfl ?_
  intro j hlt hj
  have hlt : j < draft.function.blocks.size := hlt
  have hmem : j ∉ draft.function.exit :: pending := hj.1
  refine ⟨?_, fun _ => ?_⟩
  · simp only [htargets, hexit, List.mem_cons, not_or] at hmem ⊢
    exact ⟨hmem.1, Nat.ne_of_lt (Nat.lt_succ_of_lt hlt),
      Nat.ne_of_lt (Nat.lt_succ_of_lt (Nat.lt_succ_of_lt hlt)), hmem.2⟩
  · change j ≠ draft.forkTargets.1
    rw [htargets]
    exact Nat.ne_of_lt hlt

theorem Step.growsInto {first : Nat} (h : Stage.Step first s s') (hs : s.Sound) (hfit : s'.Fits)
    (hf : s'.GrowsInto f) : s.GrowsInto f := by
  cases h with
  | @declare pending draft symbol name ty hfirst h =>
    have hexit := draft.exit_emit [.alloca { symbol } ty]
    refine hf.of_growsAt hexit (draft.growsAt_emit _) rfl fun _ hj => ⟨?_, hj.2⟩
    have hmem := hj.1
    rwa [← hexit] at hmem
  | extend h => exact hf.of_extend
  | @leave pending draft =>
    have hexit := draft.exit_jump draft.function.exit
    refine hf.of_growsAt hexit (draft.growsAt_jump _) rfl fun _ hj => ⟨?_, nofun⟩
    have hmem := hj.1
    rwa [← hexit] at hmem
  | @fork pending draft l supply condition h hcondition =>
    have hfit : (draft.extend l supply).function.blocks.size + 3 ≤ UInt32.size :=
      Draft.size_fork (draft.extend l supply) condition ▸ hfit.blocks
    exact (hf.of_fork hfit).of_extend
  | @join id pending draft isOpen after h =>
    have hexit := draft.exit_jumpIfOpen after
    cases isOpen with
    | true =>
      exact hf.of_growsAt hexit (draft.growsAt_jumpIfOpen _) rfl fun _ hj => hj.join hexit rfl
    | false =>
      obtain ⟨block, hb, hshape⟩ := hs.shaped.shape
      have hsame : draft.jumpIfOpen after = draft := by
        have hb : draft.function.block? draft.current = some block := hb
        rw [Draft.jumpIfOpen, Draft.isTerminated, hb, Option.any_some, hshape.2, if_pos rfl]
      rw [hsame] at hf
      refine ⟨hf.exit, fun {j block} hb => ?_⟩
      obtain ⟨block', hb', hprefix, hclosed⟩ := hf.blocks hb
      exact ⟨block', hb', hprefix, fun hj => hclosed (hj.join rfl rfl)⟩

theorem Steps.growsInto {first : Nat} (h : Stage.Steps first s s') (hs : s.Sound) (hfit : s'.Fits)
    (hf : s'.GrowsInto f) : s.GrowsInto f := by
  induction h with
  | refl => exact hf
  | tail hsteps h ih =>
    have hfit' := h.fits hfit
    exact ih hfit' (h.growsInto (Stage.Steps.sound hsteps hfit' hs) hfit hf)

end Stage

end Cinder.Flow
