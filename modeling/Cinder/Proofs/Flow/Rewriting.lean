import Cinder.Proofs.Flow.Refinement

/-!
# Rewriting one block

A pass replaces a block of a function.  If it replaces every instruction by one
that does the same wherever control gets there, the function is refined.
-/

namespace Cinder.Flow

variable {env env' : Env} {i : Instruction}

namespace Function

variable {f : Function} {id : BlockId} {block : Block}

section

variable (h : f.block? id = some block)

include h

theorem lt_size_of_block? : id < f.blocks.size := by
  apply Nat.lt_of_not_le
  intro hle
  rw [block?, (Arena.get?_eq_none_iff f.blocks id).2 hle] at h
  exact absurd h (by simp)

theorem block?_setBlock (new : Block) (j : BlockId) :
    (f.setBlock id new).block? j = if j = id then some new else f.block? j := by
  have hlt := lt_size_of_block? h
  simp only [block?, setBlock, Arena.get?_set, hlt, if_true, eq_comm]

theorem block?_setBlock_self (new : Block) : (f.setBlock id new).block? id = some new := by
  rw [block?_setBlock h, if_pos rfl]

theorem block?_setBlock_of_ne (new : Block) {j : BlockId}
    (hj : j ≠ id) : (f.setBlock id new).block? j = f.block? j := by
  rw [block?_setBlock h, if_neg hj]

theorem setBlock_self : f.setBlock id block = f := by
  obtain ⟨hlt, hget⟩ := Array.getElem?_eq_some_iff.1 h
  rw [setBlock, Arena.set, ← hget, Array.setIfInBounds_def, dif_pos hlt, Array.set_getElem_self]

theorem modifyBlock_of_block? (change : Block → Block) :
    f.modifyBlock id change = f.setBlock id (change block) := by
  rw [modifyBlock, h]

end

@[simp] theorem setBlock_entry (new : Block) : (f.setBlock id new).entry = f.entry := rfl
@[simp] theorem setBlock_exit (new : Block) : (f.setBlock id new).exit = f.exit := rfl
@[simp] theorem setBlock_size (new : Block) :
    (f.setBlock id new).blocks.size = f.blocks.size := by
  simp [setBlock]

/-- A state in which what is left of one block has been replaced. -/
def rewriteAt (id : BlockId) (g : List Instruction → List Instruction) (s : State) : State :=
  ⟨s.block, if s.block = id then g s.rest else s.rest, s.env⟩

theorem enter_setBlock (h : f.block? id = some block) {new : Block}
    {g : List Instruction → List Instruction} (hg : new.instructions = g block.instructions)
    (j : BlockId) (env : Env) :
    (f.setBlock id new).enter j env = (f.enter j env).map (rewriteAt id g) := by
  unfold enter
  rw [block?_setBlock h]
  by_cases hj : j = id
  · rw [if_pos hj, hj, h]
    simp [rewriteAt, hg]
  · rw [if_neg hj]
    cases f.block? j with
    | none => rfl
    | some other => simp [rewriteAt, hj]

theorem start_setBlock (h : f.block? id = some block) {new : Block}
    {g : List Instruction → List Instruction} (hg : new.instructions = g block.instructions)
    (init : Env) (arguments : List Constant) :
    (f.setBlock id new).start init arguments = (f.start init arguments).map (rewriteAt id g) :=
  enter_setBlock h hg ..

end Function

namespace Instruction

/-- The environments in which an instruction can leave control to the one behind
it. -/
def After (env : Env) (env' : Env) : Instruction → Prop
  | .branch _ _ => env' = env
  | .call result _ _ => ∃ value, env' = env.receive result value
  | i => i.effect env = some env'

theorem After.frame (h : i.After env env') {v : Variable} (hv : i.definition ≠ some v) :
    env' v = env v := by
  cases i with
  | branch condition target => rw [show env' = env from h]
  | call result callee arguments =>
    obtain ⟨value, rfl⟩ := h
    cases result with
    | none => rfl
    | some r =>
      cases value with
      | none => rfl
      | some c => exact env.set_of_ne c fun hvr => hv (by rw [hvr]; rfl)
  | label => cases h; rfl
  | alloca => cases h; rfl
  | goto => cases h
  | ret => cases h
  | binary result lhs op rhs operandTy resultTy =>
    obtain ⟨c, -, rfl⟩ := Option.map_eq_some_iff.1 h
    exact env.set_of_ne c fun hvr => hv (by rw [hvr]; rfl)
  | cast => cases h; exact env.set_of_ne _ fun hvr => hv (by rw [hvr]; rfl)
  | store => cases h; exact env.set_of_ne _ fun hvr => hv (by rw [hvr]; rfl)
  | load => cases h; exact env.set_of_ne _ fun hvr => hv (by rw [hvr]; rfl)

theorem After.of_effect (h : i.effect env = some env') :
    i.After env env' := by
  cases i with
  | branch => cases h
  | call => cases h
  | _ => exact h

theorem After.isTerminator (h : i.After env env') :
    i.isTerminator = false := by
  cases i with
  | goto => cases h
  | ret => cases h
  | _ => rfl

/-- Whether a second instruction does what the first one does in an environment. -/
def Like (env : Env) : Instruction → Instruction → Prop
  | .goto target, j => j = .goto target
  | .branch condition target, j =>
    ∃ condition', j = .branch condition' target ∧ condition'.value env = condition.value env
  | .call result callee arguments, j =>
    ∃ arguments', j = .call result callee arguments' ∧
      arguments'.map (Operand.value env) = arguments.map (Operand.value env)
  | .ret value, j =>
    ∃ value', j = .ret value' ∧
      value'.map (fun p => p.1.value env) = value.map (fun p => p.1.value env)
  | i, j => j.effect env = i.effect env

end Instruction

theorem Instruction.Like.refl (env : Env) (i : Instruction) : i.Like env i := by
  cases i with
  | branch condition target => exact ⟨condition, rfl, rfl⟩
  | call result callee arguments => exact ⟨arguments, rfl, rfl⟩
  | ret value => exact ⟨value, rfl, rfl⟩
  | _ => rfl

/-- A step either goes on behind its instruction or enters a block, and another
function with a like instruction does the same. -/
theorem Step.like {calls : Calls} {f f' : Function} {move : State → State}
    (henter : ∀ {j env u}, f.enter j env = some u → f'.enter j env = some (move u)) {id : BlockId}
    {j : Instruction} {rest : List Instruction} {es : List Event} {t : State}
    (h : Step calls f ⟨id, i :: rest, env⟩ es t) (hlike : i.Like env j) (rest' : List Instruction) :
    (∃ env', i.After env env' ∧ t = ⟨id, rest, env'⟩ ∧
      Step calls f' ⟨id, j :: rest', env⟩ es ⟨id, rest', env'⟩) ∨
    ∃ target, f.enter target env = some t ∧ Step calls f' ⟨id, j :: rest', env⟩ es (move t) := by
  cases h with
  | plain h =>
    left
    cases i with
    | branch => cases h
    | call => cases h
    | goto => cases h
    | ret => cases h
    | _ => exact ⟨_, h, rfl, .plain (hlike.trans h)⟩
  | goto h =>
    right
    cases hlike
    exact ⟨_, h, .goto (henter h)⟩
  | taken hc h =>
    right
    obtain ⟨condition', rfl, hvalue⟩ := hlike
    exact ⟨_, h, .taken (hvalue ▸ hc) (henter h)⟩
  | passed hc =>
    left
    obtain ⟨condition', rfl, hvalue⟩ := hlike
    exact ⟨_, rfl, rfl, .passed (hvalue ▸ hc)⟩
  | call h =>
    left
    obtain ⟨arguments', rfl, hvalues⟩ := hlike
    refine ⟨_, ⟨_, rfl⟩, rfl, ?_⟩
    rw [← hvalues] at h ⊢
    exact .call h

namespace Function

section

variable {f : Function} {id : BlockId} {block : Block} {g : Instruction → Instruction}
  {Inv : List Instruction → Env → Prop}

/-- The states that correspond when the instructions of a block are replaced one
by one: inside the block the invariant holds of what has been run of it. -/
structure Replaced (id : BlockId) (block : Block) (g : Instruction → Instruction)
    (Inv : List Instruction → Env → Prop) (s s' : State) : Prop where
  same : s' = rewriteAt id (List.map g) s
  inside : s.block = id → ∃ done, block.instructions = done ++ s.rest ∧ Inv done s.env

variable (hb : f.block? id = some block) (hnil : ∀ env, Inv [] env)
  (hlike : ∀ {done} {i : Instruction} {rest env}, block.instructions = done ++ i :: rest →
    Inv done env → i.Like env (g i))
  (hnext : ∀ {done} {i : Instruction} {rest env env'}, block.instructions = done ++ i :: rest →
    Inv done env → i.After env env' → Inv (done ++ [i]) env')

include hb hnil

theorem replaced_enter {j : BlockId} {s : State} (h : f.enter j env = some s) :
    Replaced id block g Inv s (rewriteAt id (List.map g) s) := by
  refine ⟨rfl, fun hs => ⟨[], ?_, hnil _⟩⟩
  obtain ⟨other, hother, rfl⟩ := Option.map_eq_some_iff.1 h
  have hj : j = id := hs
  rw [hj, hb] at hother
  cases hother
  rfl

include hlike hnext

theorem replaced_step {calls : Calls} {s t s' : State} {es : List Event}
    (hstep : Step calls f s es t) (hR : Replaced id block g Inv s s') :
    ∃ t', Steps calls (f.setBlock id { block with instructions := block.instructions.map g })
      s' es t' ∧ Replaced id block g Inv t t' := by
  obtain ⟨rfl, hinside⟩ := hR
  have hb' := block?_setBlock_self hb { block with instructions := block.instructions.map g }
  have henter : ∀ {j env u}, f.enter j env = some u →
      (f.setBlock id { block with instructions := block.instructions.map g }).enter j env =
        some (rewriteAt id (List.map g) u) := by
    intro j env u h
    rw [enter_setBlock hb rfl, h]
    rfl
  obtain ⟨b, rest, env⟩ := s
  by_cases hid : b = id
  · -- inside the block: the instruction in front is replaced
    subst hid
    obtain ⟨done, hsplit, hinv⟩ := hinside rfl
    cases rest with
    | nil =>
      cases hstep with
      | fall hold hn h =>
        rw [hb] at hold
        cases hold
        refine ⟨_, .single ?_, replaced_enter hb hnil h⟩
        simpa [rewriteAt] using Step.fall hb' hn (henter h)
    | cons i rest =>
      have hi := hlike hsplit hinv
      rcases hstep.like henter hi (rest.map g) with
        ⟨env', hafter, rfl, hstep'⟩ | ⟨target, hent, hstep'⟩
      · refine ⟨_, .single ?_, ⟨rfl, fun _ => ⟨done ++ [i], ?_, hnext hsplit hinv hafter⟩⟩⟩
        · simpa [rewriteAt] using hstep'
        · simpa using hsplit
      · refine ⟨_, .single ?_, replaced_enter hb hnil hent⟩
        simpa [rewriteAt] using hstep'
  · -- outside of it nothing is replaced
    cases rest with
    | nil =>
      cases hstep with
      | fall hold hn h =>
        refine ⟨_, .single ?_, replaced_enter hb hnil h⟩
        rw [← block?_setBlock_of_ne hb _ hid] at hold
        simpa [rewriteAt, hid] using Step.fall hold hn (henter h)
    | cons i rest =>
      rcases hstep.like henter (Instruction.Like.refl env i) rest with
        ⟨env', -, rfl, hstep'⟩ | ⟨target, hent, hstep'⟩
      · refine ⟨_, .single ?_, ⟨rfl, fun h => absurd h hid⟩⟩
        simpa [rewriteAt, hid] using hstep'
      · refine ⟨_, .single ?_, replaced_enter hb hnil hent⟩
        simpa [rewriteAt, hid] using hstep'

variable (Inv) in
theorem refines_map :
    f.Refines (f.setBlock id { block with instructions := block.instructions.map g }) := by
  refine Simulation.refines (R := Replaced id block g Inv) ⟨?_, ?_, ?_⟩ rfl
  · intro init arguments s hstart
    refine ⟨_, ?_, replaced_enter hb hnil hstart⟩
    rw [start_setBlock hb rfl, hstart]
    rfl
  · exact replaced_step hb hnil hlike hnext
  · intro calls s value s' hs hR
    obtain ⟨rfl, hinside⟩ := hR
    obtain ⟨b, rest, env⟩ := s
    obtain ⟨result, rest', hrest, rfl⟩ := hs
    change rest = _ at hrest
    subst hrest
    refine ⟨_, .refl, ?_⟩
    by_cases hid : b = id
    · obtain ⟨done, hsplit, hinv⟩ := hinside hid
      obtain ⟨result', hg, hvalue⟩ := hlike hsplit hinv
      exact ⟨result', rest'.map g, by simp [rewriteAt, hid, hg], hvalue.symm⟩
    · exact ⟨result, rest', by simp [rewriteAt, hid], rfl⟩

end

end Function

end Cinder.Flow
