import Cinder.Proofs.Flow.Evaluation
import Cinder.Proofs.Flow.Growth
import Cinder.Proofs.Flow.Walk

/-!
# Positions in a growing function

A draft stands for a position in the function that it grows into: the one behind
the last instruction of its current block.
-/

namespace Cinder.Flow

def Function.arrive (f : Function) (id : BlockId) (env : Env) : State :=
  ⟨id, (f.instructionsOf id).drop 1, env⟩

namespace Draft

def reached (draft : Draft) (f : Function) (env : Env) : State :=
  ⟨draft.current,
    (f.instructionsOf draft.current).drop (draft.function.instructionsOf draft.current).length, env⟩

variable {draft : Draft} {f : Function} {block block' : Block}

theorem reached_eq (hb : draft.function.block? draft.current = some block)
    (hb' : f.block? draft.current = some block') (env : Env) :
    draft.reached f env =
      ⟨draft.current, block'.instructions.drop block.instructions.length, env⟩ := by
  rw [reached, Function.instructionsOf_of_block? hb, Function.instructionsOf_of_block? hb']

theorem reached_enter {id : BlockId} (h : draft.function.block? id = some (.labelled id))
    (env : Env) : (draft.enter id).reached f env = f.arrive id env := by
  have hlength : (draft.function.instructionsOf id).length = 1 := by
    rw [Function.instructionsOf_of_block? h]
    rfl
  simp only [reached, enter, hlength, Function.arrive]

section

variable (hb : draft.function.block? draft.current = some block)

include hb

theorem block?_extend (l : List Instruction) (supply : Supply) :
    (draft.extend l supply).function.block? draft.current =
      some { block with instructions := block.instructions ++ l } :=
  (Function.block?_modifyBlock hb _ _).trans (if_pos rfl)

theorem block?_jump (target : BlockId) : (draft.jump target).function.block? draft.current =
      some { block with
        instructions := block.instructions ++ [.goto target]
        next := some target } := by
  rw [function_jump, Function.block?_modifyBlock hb, if_pos rfl]

theorem block?_jump_of_ne (target : BlockId) {j : BlockId} (hj : j ≠ draft.current) :
    (draft.jump target).function.block? j = draft.function.block? j := by
  rw [function_jump, Function.block?_modifyBlock hb, if_neg hj]

end

section

variable (hfit : draft.function.blocks.size + 3 ≤ UInt32.size)

include hfit

theorem block?_addBlocks_first :
    draft.function.addBlock.addBlock.addBlock.block? draft.function.blocks.size =
      some (.labelled draft.function.blocks.size) := by
  have hsize₁ := draft.function.size_addBlock
  have hsize₂ := draft.function.addBlock.size_addBlock
  have hlt : draft.function.blocks.size < draft.function.addBlock.blocks.size := by omega
  rw [Function.block?_addBlock_of_lt (by omega) (Nat.lt_trans hlt (by omega)),
    Function.block?_addBlock_of_lt (by omega) hlt, Function.block?_addBlock (by omega), if_pos rfl]

theorem block?_fork (hb : draft.function.block? draft.current = some block) (condition : Operand)
    (j : BlockId) :
    (draft.fork condition).function.block? j =
      if j = draft.current then
        some { block with
          instructions := block.instructions ++ [.branch condition draft.forkTargets.1]
          next := some draft.forkTargets.2.1
          branch := some draft.forkTargets.1 }
      else draft.function.addBlock.addBlock.addBlock.block? j := by
  have hb' : draft.function.addBlock.addBlock.addBlock.block? draft.current = some block := by
    rw [block?_addBlocks hfit _ (Function.lt_size_of_block? hb), hb]
  simp only [fork, enter, function_split]
  exact Function.block?_modifyBlock hb' _ j

theorem block?_fork_taken (hb : draft.function.block? draft.current = some block)
    (condition : Operand) :
    (draft.fork condition).function.block? draft.forkTargets.1 =
      some (.labelled draft.forkTargets.1) := by
  rw [block?_fork hfit hb, forkTargets_eq hfit,
    if_neg (Nat.ne_of_gt (Function.lt_size_of_block? hb)), block?_addBlocks_first hfit]

end

end Draft

/-! ## Going from block to block -/

section

variable {calls : Calls} {f : Function} {draft : Draft} {pending : List BlockId} {s : Stage}

theorem Goes.of_enter {id : BlockId} {block : Block} (h : f.block? id = some block)
    (hlabel : [.label id] <+: block.instructions) (env : Env) :
    ∃ s, f.enter id env = some s ∧ Goes calls f s (f.arrive id env) := by
  obtain ⟨rest, hrest⟩ := hlabel
  refine ⟨⟨id, .label id :: rest, env⟩, ?_, ?_⟩
  · rw [Function.enter, h, Option.map_some, ← hrest]
    rfl
  · rw [Function.arrive, Function.instructionsOf_of_block? h, ← hrest]
    exact .step (.plain rfl)

/-- A block of a draft with nothing but its label can be entered in the end. -/
theorem Stage.GrowsInto.enter (hf : s.GrowsInto f) {id : BlockId}
    (h : s.draft.function.block? id = some (.labelled id)) (env : Env) :
    ∃ t, f.enter id env = some t ∧ Goes calls f t (f.arrive id env) := by
  obtain ⟨block, hb, hprefix, -⟩ := hf.blocks h
  exact Goes.of_enter hb hprefix env

theorem Goes.extend {isOpen : Bool} {l : List Instruction} {supply : Supply} {size : Nat}
    {env env' : Env} (hs : Stage.Sound ⟨pending, draft, true⟩)
    (hf : Stage.GrowsInto ⟨pending, draft.extend l supply, isOpen⟩ f)
    (hl : Computes calls f l size env env') :
    Goes calls f (draft.reached f env) ((draft.extend l supply).reached f env') := by
  obtain ⟨block, hb, -⟩ := hs.shaped.shape
  have hb' := Draft.block?_extend hb l supply
  obtain ⟨last, hlast, ⟨rest, hrest⟩, -⟩ := hf.blocks hb'
  rw [Draft.reached_eq hb hlast, Draft.reached_eq hb' hlast, ← hrest, List.drop_left,
    List.append_assoc, List.drop_left]
  exact hl.goes _ rest

theorem Goes.jump {target : BlockId} (hs : Stage.Sound ⟨pending, draft, true⟩)
    (htarget : target ∈ draft.function.exit :: pending) (hf : s.GrowsInto f)
    (hfunction : s.draft.function = (draft.jump target).function)
    (hclosed : s.Closed draft.current) (env : Env) :
    Goes calls f (draft.reached f env) (f.arrive target env) := by
  obtain ⟨block, hb, -⟩ := hs.shaped.shape
  have hne : target ≠ draft.current := by
    rintro rfl
    exact (List.nodup_cons.1 hs.shaped.nodup).1 htarget
  have hb' := Draft.block?_jump hb target
  have hwaits := (Draft.block?_jump_of_ne hb target hne).trans (hs.shaped.waiting target htarget)
  rw [← hfunction] at hb' hwaits
  obtain ⟨last, hlast, -, hsame⟩ := hf.blocks hb'
  obtain ⟨t, henter, hgoes⟩ := hf.enter hwaits env
  rw [Draft.reached_eq hb hlast, hsame hclosed, List.drop_left]
  exact (Goes.step (.goto henter)).trans hgoes

theorem Goes.join {id after : BlockId} (hs : Stage.Sound ⟨id :: pending, draft, true⟩)
    (hafter : after ∈ id :: pending)
    (hf : Stage.GrowsInto ⟨pending, (draft.jumpIfOpen after).enter id, true⟩ f) (env : Env) :
    Goes calls f (draft.reached f env) (f.arrive after env) := by
  obtain ⟨block, hb, hopen⟩ := hs.shaped.shape
  have hjump : draft.jumpIfOpen after = draft.jump after := by
    have hb : draft.function.block? draft.current = some block := hb
    rw [Draft.jumpIfOpen, Draft.isTerminated, hb, Option.any_some, Block.IsOpen.isTerminated hopen,
      if_neg Bool.false_ne_true]
  rw [hjump] at hf
  have hcurrent := (List.nodup_cons.1 hs.shaped.nodup).1
  simp only [List.mem_cons, not_or] at hcurrent
  refine Goes.jump hs (List.mem_cons_of_mem _ hafter) hf rfl ⟨?_, fun _ => hcurrent.2.1⟩ env
  change draft.current ∉ (draft.jump after).function.exit :: pending
  rw [Draft.exit_jump, List.mem_cons, not_or]
  exact ⟨hcurrent.1, hcurrent.2.2⟩

section

variable {condition : Operand} (hs : Stage.Sound ⟨pending, draft, true⟩)
  (hfit : draft.function.blocks.size + 3 ≤ UInt32.size)
  (hf : Stage.GrowsInto ⟨draft.forkTargets.2.1 :: draft.forkTargets.2.2 :: pending,
    draft.fork condition, true⟩ f)

include hs hfit hf

theorem Draft.reached_fork : ∃ last, f.block? draft.current = some last ∧
    last.next = some draft.forkTargets.2.1 ∧ ∀ env, draft.reached f env =
      ⟨draft.current, [.branch condition draft.forkTargets.1], env⟩ := by
  obtain ⟨block, hb, -⟩ := hs.shaped.shape
  have hlt : draft.current < draft.function.blocks.size := hs.shaped.current_lt
  have htargets := Draft.forkTargets_eq hfit
  have hcurrent := (List.nodup_cons.1 hs.shaped.nodup).1
  have hb' := (Draft.block?_fork hfit hb condition draft.current).trans (if_pos rfl)
  obtain ⟨last, hlast, -, hsame⟩ := hf.blocks hb'
  have hclosed : Stage.Closed ⟨draft.forkTargets.2.1 :: draft.forkTargets.2.2 :: pending,
      draft.fork condition, true⟩ draft.current := by
    refine ⟨?_, fun _ => ?_⟩
    · simp only [Draft.exit_fork, htargets, List.mem_cons, not_or] at hcurrent ⊢
      exact ⟨hcurrent.1, Nat.ne_of_lt (Nat.lt_succ_of_lt hlt),
        Nat.ne_of_lt (Nat.lt_succ_of_lt (Nat.lt_succ_of_lt hlt)), hcurrent.2⟩
    · change draft.current ≠ draft.forkTargets.1
      rw [htargets]
      exact Nat.ne_of_lt hlt
  refine ⟨last, hlast, ?_, fun env => ?_⟩
  · rw [hsame hclosed]
  · rw [Draft.reached_eq hb hlast, hsame hclosed, List.drop_left]

theorem Goes.fork_taken {env : Env} (hc : (condition.value env).isZero = false) :
    Goes calls f (draft.reached f env) ((draft.fork condition).reached f env) := by
  obtain ⟨last, -, -, hreached⟩ := Draft.reached_fork hs hfit hf
  obtain ⟨block, hb, -⟩ := hs.shaped.shape
  have hlabelled := Draft.block?_fork_taken hfit hb condition
  obtain ⟨t, henter, hgoes⟩ := hf.enter hlabelled env
  have harrive := Draft.reached_enter (f := f) hlabelled env
  rw [hreached]
  exact (Goes.step (.taken hc henter)).trans (harrive ▸ hgoes)

theorem Goes.fork_passed {env : Env} (hsound : Stage.Sound
      ⟨draft.forkTargets.2.1 :: draft.forkTargets.2.2 :: pending, draft.fork condition, true⟩)
    (hc : (condition.value env).isZero = true) :
    Goes calls f (draft.reached f env) (f.arrive draft.forkTargets.2.1 env) := by
  obtain ⟨last, hlast, hnext, hreached⟩ := Draft.reached_fork hs hfit hf
  have hlabelled := hsound.shaped.waiting draft.forkTargets.2.1
    (List.mem_cons_of_mem _ List.mem_cons_self)
  obtain ⟨t, henter, hgoes⟩ := hf.enter hlabelled env
  rw [hreached]
  exact ((Goes.step (.passed hc)).trans (.step (.fall hlast hnext henter))).trans hgoes

end

end

end Cinder.Flow
