import Cinder.Flow.Pass.Branches
import Cinder.Proofs.Flow.Rewriting

/-!
# Deciding branches and threading jumps

A conditional jump on a constant goes one way only.  A jump to a block that does
nothing but jump gets to the end of the chain without any other effect, so it may
as well go there at once.
-/

namespace Cinder.Flow

/-! ## Deciding a branch -/

theorem decideBranch_cons {i : Instruction} {rest l : List Instruction} {target : Option BlockId}
    (h : decideBranch (i :: rest) = some (l, target)) :
    (∃ c t, i = .branch (.constant c) t ∧
      (c.isZero = true ∧ l = rest ∧ target = none ∨
        c.isZero = false ∧ l = [.goto t] ∧ target = some t)) ∨
    ∃ rest', decideBranch rest = some (rest', target) ∧ l = i :: rest' := by
  unfold decideBranch at h
  split at h
  · cases h
  · rename_i c t tail heq
    cases heq
    left
    refine ⟨c, t, rfl, ?_⟩
    split at h <;> rename_i hc <;> cases h
    · exact .inl ⟨hc, rfl, rfl⟩
    · exact .inr ⟨by simpa using hc, rfl, rfl⟩
  · rename_i j tail _ heq
    cases heq
    right
    obtain ⟨⟨rest', target'⟩, hrest, hpair⟩ := Option.map_eq_some_iff.1 h
    cases hpair
    exact ⟨rest', hrest, rfl⟩

/-- Deciding a branch takes it out, or makes it a jump that nothing follows. -/
theorem exists_branch_of_decideBranch {l l' : List Instruction} {target : Option BlockId}
    (h : decideBranch l = some (l', target)) :
    ∃ done c t rest, l = done ++ .branch (.constant c) t :: rest ∧
      (l' = done ++ rest ∧ target = none ∨ l' = done ++ [.goto t] ∧ target = some t) := by
  induction l generalizing l' with
  | nil => cases h
  | cons i rest ih =>
    rcases decideBranch_cons h with ⟨c, t, rfl, ⟨-, hcut⟩ | ⟨-, hcut⟩⟩ | ⟨rest', hrest, rfl⟩
    · exact ⟨[], c, t, rest, rfl, .inl hcut⟩
    · exact ⟨[], c, t, rest, rfl, .inr hcut⟩
    · obtain ⟨done, c, t, tail, rfl, hcut⟩ := ih hrest
      refine ⟨i :: done, c, t, tail, rfl, hcut.imp (.imp_left ?_) (.imp_left ?_)⟩
      · exact congrArg (i :: ·)
      · exact congrArg (i :: ·)

namespace Function

section

variable {f : Function} {id : BlockId} {block : Block} {l : List Instruction}
  {target : Option BlockId}

/-- The states that correspond when a branch of a block is decided: what is left of
the block either still holds the branch or comes behind it. -/
structure Decided (id : BlockId) (target : Option BlockId) (s s' : State) : Prop where
  block : s'.block = s.block
  env : s'.env = s.env
  outside : s.block ≠ id → s'.rest = s.rest
  inside : s.block = id → decideBranch s.rest = some (s'.rest, target) ∨
    s'.rest = s.rest ∧ target = none

theorem decided_enter (hb : f.block? id = some block)
    (hd : decideBranch block.instructions = some (l, target)) {j : BlockId} {env : Env}
    {s : State} (h : f.enter j env = some s) :
    Decided id target s (rewriteAt id (fun _ => l) s) := by
  refine ⟨rfl, rfl, fun hs => by simp [rewriteAt, hs], fun hs => .inl ?_⟩
  obtain ⟨other, hother, rfl⟩ := Option.map_eq_some_iff.1 h
  have hj : j = id := hs
  rw [hj, hb] at hother
  cases hother
  simp [rewriteAt, hj, hd]

/-- What is left of a block starts with the same instruction, unless the decided
branch comes first. -/
theorem Decided.cons_cases {b : BlockId} {i : Instruction} {rest rest' : List Instruction}
    {env env' : Env} (h : Decided id target ⟨b, i :: rest, env⟩ ⟨b, rest', env'⟩) :
    (∃ rest'', rest' = i :: rest'' ∧ ∀ e, Decided id target ⟨b, rest, e⟩ ⟨b, rest'', e⟩) ∨
    ∃ c t, i = .branch (.constant c) t ∧
      (c.isZero = true ∧ Decided id target ⟨b, rest, env⟩ ⟨b, rest', env⟩ ∨
        c.isZero = false ∧ rest' = [.goto t]) := by
  by_cases hid : b = id
  · rcases h.inside hid with hin | ⟨hrest, htarget⟩
    · rcases decideBranch_cons hin with ⟨c, t, rfl, hcase⟩ | ⟨rest'', hrest, hcons⟩
      · right
        refine ⟨c, t, rfl, ?_⟩
        rcases hcase with ⟨hc, rfl, htarget⟩ | ⟨hc, hgoto, -⟩
        · exact .inl ⟨hc, rfl, rfl, fun _ => rfl, fun _ => .inr ⟨rfl, htarget⟩⟩
        · exact .inr ⟨hc, hgoto⟩
      · exact .inl ⟨rest'', hcons, fun e => ⟨rfl, rfl, fun h => absurd hid h,
          fun _ => .inl hrest⟩⟩
    · exact .inl ⟨rest, hrest, fun e => ⟨rfl, rfl, fun _ => rfl, fun _ => .inr ⟨rfl, htarget⟩⟩⟩
  · exact .inl ⟨rest, h.outside hid, fun e => ⟨rfl, rfl, fun _ => rfl, fun h => absurd h hid⟩⟩

theorem decided_step (hb : f.block? id = some block)
    (hd : decideBranch block.instructions = some (l, target)) {calls : Calls} {s t s' : State}
    {es : List Event} (hstep : Step calls f s es t) (hR : Decided id target s s') :
    ∃ t', Steps calls (f.setBlock id ⟨l, target.or block.next, none⟩) s' es t' ∧
      Decided id target t t' := by
  have henter : ∀ {j env u}, f.enter j env = some u →
      (f.setBlock id ⟨l, target.or block.next, none⟩).enter j env =
        some (rewriteAt id (fun _ => l) u) := by
    intro j env u h
    rw [enter_setBlock hb (g := fun _ => l) rfl, h]
    rfl
  obtain ⟨b, rest, env⟩ := s
  obtain ⟨b', rest', env'⟩ := s'
  obtain rfl : b' = b := hR.block
  obtain rfl : env' = env := hR.env
  cases rest with
  | nil =>
    -- a branch that is still to come would have to be left
    have hpassed : b' = id → rest' = [] ∧ target = none := by
      intro hid
      rcases hR.inside hid with hin | hin
      · simp [decideBranch] at hin
      · exact hin
    cases hstep with
    | @fall _ old next _ _ hold hn h =>
      refine ⟨_, .single ?_, decided_enter hb hd h⟩
      by_cases hid : b' = id
      · obtain ⟨rfl, rfl⟩ := hpassed hid
        subst hid
        rw [hb] at hold
        cases hold
        exact .fall (block?_setBlock_self hb _) hn (henter h)
      · obtain rfl : rest' = [] := hR.outside hid
        exact .fall (by rw [block?_setBlock_of_ne hb _ hid, hold]) hn (henter h)
  | cons i rest =>
    rcases hR.cons_cases with ⟨rest'', rfl, hrest⟩ | ⟨c, target', rfl, hcase⟩
    · rcases hstep.like henter (Instruction.Like.refl _ i) rest'' with
        ⟨e, -, rfl, hstep'⟩ | ⟨j, hent, hstep'⟩
      · exact ⟨_, .single hstep', hrest e⟩
      · exact ⟨_, .single hstep', decided_enter hb hd hent⟩
    · cases hstep with
      | plain h => cases h
      | taken hc h =>
        rcases hcase with ⟨hzero, -⟩ | ⟨-, rfl⟩
        · exact absurd (hc.symm.trans hzero) (by simp)
        · exact ⟨_, .single (.goto (henter h)), decided_enter hb hd h⟩
      | passed hc =>
        rcases hcase with ⟨-, hrest⟩ | ⟨hnonzero, -⟩
        · exact ⟨_, .refl, hrest⟩
        · exact absurd (hnonzero.symm.trans hc) (by simp)

theorem refines_decide (hb : f.block? id = some block)
    (hd : decideBranch block.instructions = some (l, target)) :
    f.Refines (f.setBlock id ⟨l, target.or block.next, none⟩) := by
  refine Simulation.refines (R := Decided id target) ⟨?_, ?_, ?_⟩ rfl
  · intro init arguments s hstart
    refine ⟨_, ?_, decided_enter hb hd hstart⟩
    rw [start_setBlock hb (g := fun _ => l) rfl, hstart]
    rfl
  · exact decided_step hb hd
  · intro calls s value s' hs hR
    obtain ⟨b, rest, env⟩ := s
    obtain ⟨b', rest', env'⟩ := s'
    obtain rfl : b' = b := hR.block
    obtain rfl : env' = env := hR.env
    obtain ⟨result, tail, hret, rfl⟩ := hs
    dsimp only at hret
    subst hret
    rcases hR.cons_cases with ⟨rest'', rfl, -⟩ | ⟨c, target', hbranch, -⟩
    · exact ⟨_, .refl, result, rest'', rfl, rfl⟩
    · cases hbranch

end

/-! ## Threading jumps -/

/-- A chain of blocks that do nothing but jump leads from one block to another. -/
inductive Leads (f : Function) : BlockId → BlockId → Prop where
  | here {j} : Leads f j j
  | proxy {j k target block} (hb : f.block? j = some block) (hp : block.proxyTarget? = some k)
    (h : Leads f k target) : Leads f j target

theorem block_eq_ok {f : Function} {j : BlockId} {block : Block} :
    f.block j = .ok block ↔ f.block? j = some block := by
  unfold Function.block
  cases f.block? j <;> simp

theorem leads_of_follow {f : Function} {fresh : List BlockId} {current target : BlockId}
    (h : f.follow fresh current = .ok (some target)) :
    f.Leads current target ∧
      ∃ block, f.block? target = some block ∧ block.proxyTarget? = none := by
  fun_induction Function.follow f fresh current with
  | case1 fresh current ih =>
    cases hblock : f.block current with
    | error fault => simp [hblock, bind, Except.bind] at h
    | ok block =>
      have hb := block_eq_ok.1 hblock
      simp only [hblock, bind, Except.bind] at h
      cases hp : block.proxyTarget? with
      | none =>
        simp only [hp] at h
        cases h
        exact ⟨.here, block, hb, hp⟩
      | some k =>
        simp only [hp] at h
        by_cases hexit : current = f.exit
        · simp [hexit, pure, Except.pure] at h
        · by_cases hfresh : current ∈ fresh
          · simp only [hexit, hfresh, if_false, dif_pos] at h
            obtain ⟨hlead, hend⟩ := ih k hfresh h
            exact ⟨.proxy hb hp hlead, hend⟩
          · simp [hexit, hfresh, pure, Except.pure] at h

section

variable {f : Function} {id source target : BlockId} {block : Block}

/-- The states that correspond when a jump is threaded.  The function with the
longer way may lag behind, with jumps of the chain still to make. -/
def Threaded (f f' : Function) (id source target : BlockId) (s s' : State) : Prop :=
  s' = rewriteAt id (List.map (Instruction.retarget source target)) s ∨
  ∃ k, (s.rest = [.goto k] ∨ ∃ j, s.rest = [.label j, .goto k]) ∧ f.Leads k target ∧
    f'.enter target s.env = some s'

theorem instructions_of_proxyTarget? {k : BlockId} (h : block.proxyTarget? = some k) :
    block.instructions = [.goto k] ∨ ∃ j, block.instructions = [.label j, .goto k] := by
  unfold Block.proxyTarget? at h
  split at h
  · rename_i j t heq
    cases h
    exact .inr ⟨j, heq⟩
  · rename_i t heq
    cases h
    exact .inl heq
  · cases h

/-- Entering the start of the chain corresponds to entering its end. -/
theorem threaded_enter {f' : Function}
    (henter : ∀ {j env u}, f.enter j env = some u → f'.enter j env =
      some (rewriteAt id (List.map (Instruction.retarget source target)) u))
    {j : BlockId} {env : Env} {u u' : State} (hlead : f.Leads j target)
    (h : f.enter j env = some u) (h' : f'.enter target env = some u') :
    Threaded f f' id source target u u' := by
  cases hlead with
  | here =>
    rw [henter h] at h'
    cases h'
    exact .inl rfl
  | proxy hb hp hlead =>
    obtain ⟨other, hother, rfl⟩ := Option.map_eq_some_iff.1 h
    rw [hb] at hother
    cases hother
    exact .inr ⟨_, instructions_of_proxyTarget? hp, hlead, h'⟩

theorem effect_retarget (env : Env) (source target : BlockId) (i : Instruction) :
    (i.retarget source target).effect env = i.effect env := by
  cases i <;> rfl

theorem step_retarget {f' : Function} {calls : Calls} {b : BlockId} {i : Instruction}
    {rest : List Instruction} {env : Env} {es : List Event} {t : State}
    (hblocks : ∀ {j env u}, f.enter j env = some u →
      ∃ u', f'.enter (if j = source then target else j) env = some u')
    (h : Step calls f ⟨b, i :: rest, env⟩ es t) (rest' : List Instruction) :
    (∃ env', t = ⟨b, rest, env'⟩ ∧
      Step calls f' ⟨b, i.retarget source target :: rest', env⟩ es ⟨b, rest', env'⟩) ∨
    ∃ j t', f.enter j env = some t ∧
      f'.enter (if j = source then target else j) env = some t' ∧
      Step calls f' ⟨b, i.retarget source target :: rest', env⟩ es t' := by
  cases h with
  | plain h => exact .inl ⟨_, rfl, .plain ((effect_retarget ..).trans h)⟩
  | goto h =>
    obtain ⟨t', h'⟩ := hblocks h
    exact .inr ⟨_, t', h, h', .goto h'⟩
  | taken hc h =>
    obtain ⟨t', h'⟩ := hblocks h
    exact .inr ⟨_, t', h, h', .taken hc h'⟩
  | passed hc => exact .inl ⟨_, rfl, .passed hc⟩
  | call h => exact .inl ⟨_, rfl, .call h⟩

theorem redirect_link (source target n : BlockId) :
    (if some n = some source then some target else some n) =
      some (if n = source then target else n) := by
  simp only [Option.some.injEq]
  split <;> rfl

theorem enter_redirect (hb : f.block? id = some block) {j : BlockId} {env : Env} {u : State}
    (h : f.enter j env = some u) :
    (f.setBlock id (block.redirect source target)).enter j env =
      some (rewriteAt id (List.map (Instruction.retarget source target)) u) := by
  rw [enter_setBlock hb (g := List.map (Instruction.retarget source target)) rfl, h]
  rfl

theorem threaded_step (hb : f.block? id = some block) (hlead : f.Leads source target)
    {last : Block} (hlast : f.block? target = some last)
    {calls : Calls} {s t s' : State} {es : List Event} (hstep : Step calls f s es t)
    (hR : Threaded f (f.setBlock id (block.redirect source target)) id source target s s') :
    ∃ t', Steps calls (f.setBlock id (block.redirect source target)) s' es t' ∧
      Threaded f (f.setBlock id (block.redirect source target)) id source target t t' := by
  have henter : ∀ {j env u}, f.enter j env = some u → _ := @enter_redirect f id source target _ hb
  have hend : ∀ env, f.enter target env = some ⟨target, last.instructions, env⟩ := by
    intro env
    rw [enter, hlast]
    rfl
  -- a jump that has been redirected still gets to a corresponding state
  have hturn : ∀ {j env u}, f.enter j env = some u →
      ∃ u', (f.setBlock id (block.redirect source target)).enter
          (if j = source then target else j) env = some u' ∧
        Threaded f (f.setBlock id (block.redirect source target)) id source target u u' := by
    intro j env u h
    split
    · rename_i hj
      exact ⟨_, henter (hend env), threaded_enter henter (hj ▸ hlead) h (henter (hend env))⟩
    · exact ⟨_, henter h, .inl rfl⟩
  obtain ⟨b, rest, env⟩ := s
  rcases hR with rfl | ⟨k, hrest, hk, hent'⟩
  · cases rest with
    | nil =>
      cases hstep with
      | @fall _ old next _ _ hold hn h =>
        by_cases hid : b = id
        · subst hid
          rw [hb] at hold
          cases hold
          obtain ⟨t', h', hR'⟩ := hturn h
          refine ⟨t', .single ?_, hR'⟩
          have hn' : (block.redirect source target).next =
              some (if next = source then target else next) := by
            rw [Block.redirect, hn]
            exact redirect_link ..
          simpa [rewriteAt] using Step.fall (block?_setBlock_self hb _) hn' h'
        · refine ⟨_, .single ?_, .inl rfl⟩
          rw [← block?_setBlock_of_ne hb (block.redirect source target) hid] at hold
          simpa [rewriteAt, hid] using Step.fall hold hn (henter h)
    | cons i rest =>
      by_cases hid : b = id
      · have hblocks : ∀ {j env u}, f.enter j env = some u →
            ∃ u', (f.setBlock id (block.redirect source target)).enter
              (if j = source then target else j) env = some u' :=
          fun h => (hturn h).imp fun _ hu => hu.1
        rcases step_retarget hblocks hstep (rest.map (Instruction.retarget source target)) with
          ⟨e, rfl, hstep'⟩ | ⟨j, t', hent, hent', hstep'⟩
        · exact ⟨_, .single (by simpa [rewriteAt, hid] using hstep'), .inl rfl⟩
        · obtain ⟨u', hu', hR'⟩ := hturn hent
          rw [hent'] at hu'
          cases hu'
          exact ⟨t', .single (by simpa [rewriteAt, hid] using hstep'), hR'⟩
      · rcases hstep.like henter (Instruction.Like.refl env i) rest with
          ⟨e, -, rfl, hstep'⟩ | ⟨j, hent, hstep'⟩
        · exact ⟨_, .single (by simpa [rewriteAt, hid] using hstep'), .inl rfl⟩
        · exact ⟨_, .single (by simpa [rewriteAt, hid] using hstep'), .inl rfl⟩
  · -- on the chain: only the lagging function moves
    dsimp only at hrest
    rcases hrest with rfl | ⟨j, rfl⟩
    · cases hstep with
      | plain h => cases h
      | goto h => exact ⟨s', .refl, threaded_enter henter hk h hent'⟩
    · cases hstep with
      | plain h =>
        cases h
        exact ⟨s', .refl, .inr ⟨k, .inl rfl, hk, hent'⟩⟩

theorem refines_redirect (hb : f.block? id = some block) (hlead : f.Leads source target)
    {last : Block} (hlast : f.block? target = some last) :
    f.Refines (f.setBlock id (block.redirect source target)) := by
  refine Simulation.refines
    (R := Threaded f (f.setBlock id (block.redirect source target)) id source target)
    ⟨?_, ?_, ?_⟩ rfl
  · intro init arguments s hstart
    exact ⟨_, enter_redirect hb hstart, .inl rfl⟩
  · exact threaded_step hb hlead hlast
  · intro calls s value s' hs hR
    obtain ⟨b, rest, env⟩ := s
    obtain ⟨result, rest', hret, rfl⟩ := hs
    dsimp only at hret
    subst hret
    rcases hR with rfl | ⟨k, hrest, -⟩
    · refine ⟨_, .refl, result, ?_⟩
      by_cases hid : b = id
      · exact ⟨rest'.map (Instruction.retarget source target),
          by simp [rewriteAt, hid, Instruction.retarget], rfl⟩
      · exact ⟨rest', by simp [rewriteAt, hid], rfl⟩
    · rcases hrest with hrest | ⟨j, hrest⟩ <;> cases hrest

end

end Function

end Cinder.Flow
