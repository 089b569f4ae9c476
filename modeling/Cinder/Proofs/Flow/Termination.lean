import Cinder.Proofs.Except
import Cinder.Proofs.Flow.Progress
import Cinder.Proofs.Flow.Walk
import Mathlib.Tactic.Ring

/-!
# Termination of optimization

In a function whose links lead to its blocks no pass gets stuck, and rounds come
to an end before the bound on their number is reached.
-/

namespace Cinder.Flow

variable {table : SymbolTable} {used : VariableSet}

namespace Function

section

variable {inside : BlockId → Prop} {f f' : Function}

section

variable (h : f.RewritesIn table used inside f')

include h

theorem RewritesIn.keep {P : Function → Prop}
    (hstep : ∀ {id g g'}, inside id → g.Rewrite table used id g' → P g → P g') (hf : P f) :
    P f' := by
  induction h with
  | refl => exact hf
  | tail _ h ih =>
    obtain ⟨id, hid, h⟩ := h
    exact hstep hid h ih

theorem RewritesIn.rank_le : f'.rank ≤ f.rank :=
  h.keep (P := fun g => g.rank ≤ f.rank) (fun _ h hg => h.rank_le.trans hg) le_rfl

theorem RewritesIn.length_le : f'.length ≤ f.length :=
  h.keep (P := fun g => g.length ≤ f.length) (fun _ h hg => h.length_le.trans hg) le_rfl

theorem RewritesIn.size_eq : f'.blocks.size = f.blocks.size :=
  h.keep (P := fun g => g.blocks.size = f.blocks.size) (fun _ h hg => h.size_eq.trans hg) rfl

theorem RewritesIn.linked (hl : f.Linked) : f'.Linked :=
  h.keep (P := Linked) (fun _ h hg => hg.rewrite h) hl

end

end

variable {id target : BlockId} {f : Function} {block : Block} {l : List Instruction}
  {changed : Bool}

theorem Rewrites.rewritesIn {inside : BlockId → Prop} (hid : inside id) {f' : Function}
    (h : f.Rewrites table used id f') : f.RewritesIn table used inside f' := by
  induction h with
  | refl => exact .refl
  | tail _ h ih =>
    obtain ⟨j, rfl, h⟩ := h
    exact ih.tail ⟨j, hid, h⟩

/-! ## Threading -/

theorem Linked.exists_follow (hl : f.Linked) (fresh : List BlockId) {current : BlockId}
    (hc : current < f.blocks.size) :
    ∃ result, f.follow fresh current = .ok result := by
  fun_induction Function.follow f fresh current with
  | case1 fresh current ih =>
    obtain ⟨block, hb⟩ := exists_block? hc
    simp only [block_eq_ok.2 hb, bind, Except.bind]
    cases hp : block.proxyTarget? with
    | none => exact ⟨_, rfl⟩
    | some k =>
      dsimp only
      split
      · exact ⟨_, rfl⟩
      · split
        · rename_i hfresh
          exact ih k hfresh (hl.jumps hb (jumpsTo_of_proxyTarget? hp))
        · exact ⟨_, rfl⟩

theorem follow_of_not_proxy {fresh : List BlockId} {current : BlockId}
    (h : f.isProxy current = false) (hf : f.follow fresh current = .ok (some target)) :
    target = current := by
  rw [follow] at hf
  cases hb : f.block? current with
  | none => simp [Function.block, hb, bind, Except.bind] at hf
  | some block =>
    rw [isProxy_of_block? hb, Option.isSome_eq_false_iff, Option.isNone_iff_eq_none] at h
    simp only [block_eq_ok.2 hb, bind, Except.bind, h] at hf
    cases hf
    rfl

theorem Linked.exists_destination? (hl : f.Linked) {s : BlockId} (hs : s < f.blocks.size) :
    ∃ result, f.destination? s = .ok result ∧ ∀ target, result = some target →
      f.isProxy s = true ∧ f.Leads s target ∧
        ∃ last, f.block? target = some last ∧ last.proxyTarget? = none := by
  obtain ⟨result, hr⟩ := hl.exists_follow f.blocks.handles hs
  refine ⟨result.filter (· ≠ s), by simp [destination?, hr, bind, Except.bind, pure, Except.pure],
    ?_⟩
  intro target ht
  obtain ⟨rfl, hne⟩ := Option.filter_eq_some_iff.1 ht
  obtain ⟨hlead, hend⟩ := leads_of_follow hr
  refine ⟨?_, hlead, hend⟩
  cases hp : f.isProxy s with
  | true => rfl
  | false =>
    rw [follow_of_not_proxy hp hr] at hne
    simp at hne

def proxyLinks (f : Function) (id : BlockId) : Nat :=
  (f.successorsOf id).countP f.isProxy

theorem proxyLinks_le (f : Function) (id : BlockId) : f.proxyLinks id ≤ 2 :=
  List.countP_le_length.trans (f.length_successorsOf_le id)

theorem successorsOf_redirect {source : BlockId} (hb : f.block? id = some block) :
    (f.setBlock id (block.redirect source target)).successorsOf id =
      (f.successorsOf id).map fun n => if n = source then target else n := by
  rw [successorsOf_of_block? (block?_setBlock_self hb _), Block.successors_redirect,
    successorsOf_of_block? hb]

theorem proxyLinks_redirect {last : Block} (hb : f.block? id = some block) (source : BlockId)
    (hlast : f.block? target = some last) (hend : last.proxyTarget? = none) :
    (f.setBlock id (block.redirect source target)).proxyLinks id ≤ f.proxyLinks id ∧
      (f.isProxy source = true → source ∈ f.successorsOf id →
        (f.setBlock id (block.redirect source target)).proxyLinks id < f.proxyLinks id) := by
  have htarget : f.isProxy target = false := by
    rw [isProxy_of_block? hlast, hend]
    rfl
  have hle : ∀ n ∈ f.successorsOf id, f.isProxy (if n = source then target else n) = true →
      f.isProxy n = true := by
    intro n _ h
    by_cases hn : n = source
    · rw [if_pos hn, htarget] at h
      cases h
    · rwa [if_neg hn] at h
  unfold proxyLinks
  rw [successorsOf_redirect hb, isProxy_setBlock hb (isSome_proxyTarget?_redirect ..)]
  refine ⟨countP_map_le hle, fun hsource hmem => countP_map_lt hle hmem hsource ?_⟩
  rw [if_pos rfl, htarget]

theorem decideBranch_eq_none :
    decideBranch l = none ↔ ∀ c t, .branch (.constant c) t ∉ l := by
  fun_induction decideBranch l with
  | case1 => simp
  | case2 c t rest => simpa using ⟨c, t, fun h => absurd rfl (h rfl)⟩
  | case3 c t rest => simpa using ⟨c, t, fun h => absurd rfl (h rfl)⟩
  | case4 i rest hi ih =>
    rw [Option.map_eq_none_iff, ih]
    refine forall_congr' fun c => forall_congr' fun t => not_congr ?_
    rw [List.mem_cons, or_iff_right]
    exact fun h => hi c t h.symm

theorem decideBranch_map_retarget (h : decideBranch l = none) (source target : BlockId) :
    decideBranch (l.map (Instruction.retarget source target)) = none := by
  rw [decideBranch_eq_none] at h ⊢
  intro c t hmem
  obtain ⟨i, hi, heq⟩ := List.mem_map.1 hmem
  cases i with
  | branch condition t' =>
    injection heq with hc
    exact h c t' (hc ▸ hi)
  | _ => cases heq

/-- How far threading the links of a block has got, and whether it has changed
anything. -/
structure Threading (table : SymbolTable) (used : VariableSet) (id : BlockId) (f g : Function)
    (changed : Bool) : Prop where
  rewrites : f.Rewrites table used id g
  decided : decideBranch (f.instructionsOf id) = none → decideBranch (g.instructionsOf id) = none
  idle : changed = false → g = f
  busy : changed = true → g.rank < f.rank ∧ g.proxyLinks id < f.proxyLinks id

theorem Threading.threadTo {g : Function} (h : Threading table used id f g changed) (hl : f.Linked)
    (hid : f.block? id = some block) {s : BlockId} (hs : s ∈ f.successorsOf id) :
    ∃ g' changed', threadTo id (g, changed) s = .ok (g', changed') ∧
      Threading table used id f g' changed' := by
  have hlg := h.rewrites.linked hl
  have hsize := h.rewrites.size_eq
  obtain ⟨result, hr, htarget⟩ := hlg.exists_destination? (s := s)
    (by rw [hsize]; exact hl.successors_lt hs)
  cases result with
  | none =>
    exact ⟨g, changed, by simp [Function.threadTo, hr, bind, Except.bind, pure, Except.pure], h⟩
  | some target =>
    obtain ⟨hproxy, hlead, last, hlast, hend⟩ := htarget target rfl
    obtain ⟨old, hold⟩ := exists_block? (f := g) (j := id)
      (by rw [hsize]; exact lt_size_of_block? hid)
    have hrank := rank_redirect hold s hlast hend
    have hlinks := proxyLinks_redirect hold s hlast hend
    refine ⟨g.setBlock id (old.redirect s target), true, ?_, ?_, ?_, ?_, ?_⟩
    · simp [Function.threadTo, hr, bind, Except.bind, pure, Except.pure,
        modifyBlock_of_block? hold]
    · exact h.rewrites.tail ⟨id, rfl, old, _, hold, .redirect hlead hlast hend, rfl⟩
    · intro hd
      rw [instructionsOf_of_block? (block?_setBlock_self hold _)]
      have := h.decided hd
      rw [instructionsOf_of_block? hold] at this
      exact decideBranch_map_retarget this s target
    · exact fun h => absurd h (by simp)
    · intro _
      cases changed with
      | false =>
        -- the first link that is redirected is one of the block
        obtain rfl := h.idle rfl
        rw [successorsOf_of_block? hold] at hs
        exact ⟨hrank.2 hproxy hs, hlinks.2 hproxy (by rwa [successorsOf_of_block? hold])⟩
      | true =>
        obtain ⟨hr, hp⟩ := h.busy rfl
        exact ⟨hrank.1.trans_lt hr, hlinks.1.trans_lt hp⟩

theorem Threading.foldlM (hl : f.Linked) (hid : f.block? id = some block) {ss : List BlockId}
    (hss : ss ⊆ f.successorsOf id) {g : Function} (h : Threading table used id f g changed) :
    ∃ g' changed', ss.foldlM (Function.threadTo id) (g, changed) = .ok (g', changed') ∧
      Threading table used id f g' changed' := by
  induction ss generalizing g changed with
  | nil => exact ⟨g, changed, rfl, h⟩
  | cons s ss ih =>
    obtain ⟨hs, hss⟩ := List.cons_subset.1 hss
    obtain ⟨g₁, changed₁, hstep, h₁⟩ := h.threadTo hl hid hs
    obtain ⟨g₂, changed₂, hfold, h₂⟩ := ih hss h₁
    refine ⟨g₂, changed₂, ?_, h₂⟩
    simp only [List.foldlM_cons, hstep, bind, Except.bind]
    exact hfold

theorem Linked.exists_thread (table : SymbolTable) (used : VariableSet) (hl : f.Linked)
    (hid : f.block? id = some block) :
    ∃ g changed, f.thread id = .ok (g, changed) ∧ Threading table used id f g changed := by
  have hstart : Threading table used id f f false :=
    ⟨.refl, fun h => h, fun _ => rfl, fun h => absurd h (by simp)⟩
  obtain ⟨g, changed, hfold, h⟩ := hstart.foldlM hl hid (List.Subset.refl _)
  refine ⟨g, changed, ?_, h⟩
  rw [successorsOf_of_block? hid] at hfold
  simp only [thread, block_eq_ok.2 hid, bind, Except.bind]
  exact hfold

/-! ## Simplifying -/

/-- Once every branch is decided, a block is threaded once for every link at
most. -/
theorem Linked.exists_simplify_decided (table : SymbolTable) (used : VariableSet) {fuel : Nat}
    (hl : f.Linked) (hid : id < f.blocks.size) (hd : decideBranch (f.instructionsOf id) = none)
    (hfuel : f.proxyLinks id < fuel) :
    ∃ g changed', simplifyWithin id fuel f changed = .ok (g, changed') ∧
      f.Rewrites table used id g ∧ (changed' = true → changed = true ∨ g.rank < f.rank) := by
  induction fuel generalizing f changed with
  | zero => exact absurd hfuel (Nat.not_lt_zero _)
  | succ fuel ih =>
    obtain ⟨block, hb⟩ := exists_block? hid
    obtain ⟨g, threaded, hthread, h⟩ := hl.exists_thread table used hb
    have hdecide : block.decide? = none := by
      rw [instructionsOf_of_block? hb] at hd
      rw [Block.decide?, hd]
      rfl
    simp only [simplifyWithin, block_eq_ok.2 hb, hdecide, hthread, bind, Except.bind]
    cases threaded with
    | false =>
      refine ⟨g, changed, rfl, h.rewrites, .inl⟩
    | true =>
      obtain ⟨hrank, hlinks⟩ := h.busy rfl
      obtain ⟨g', changed', hsimp, hrw, -⟩ := @ih g true (h.rewrites.linked hl)
        (by rw [h.rewrites.size_eq]; exact hid) (h.decided hd) (by omega)
      exact ⟨g', changed', hsimp, h.rewrites.trans hrw,
        fun _ => .inr (hrw.rank_le.trans_lt hrank)⟩

theorem countP_isBranch_lt_of_decideBranch {l' : List Instruction} {target : Option BlockId}
    (h : decideBranch l = some (l', target)) :
    l'.countP Instruction.isBranch < l.countP Instruction.isBranch := by
  obtain ⟨done, c, t, rest, rfl, ⟨rfl, -⟩ | ⟨rfl, -⟩⟩ := exists_branch_of_decideBranch h
  all_goals
    have hgoto : [Instruction.goto t].countP Instruction.isBranch = 0 := rfl
    have hbranch : (Instruction.branch (.constant c) t).isBranch = true := rfl
    rw [List.countP_append, List.countP_append, List.countP_cons_of_pos hbranch]
    omega

theorem Linked.exists_simplifyWithin (table : SymbolTable) (used : VariableSet) {fuel : Nat}
    (hl : f.Linked) (hid : id < f.blocks.size)
    (hfuel : (f.instructionsOf id).countP Instruction.isBranch + 2 < fuel) :
    ∃ g changed', simplifyWithin id fuel f changed = .ok (g, changed') ∧
      f.Rewrites table used id g ∧ (changed' = true → changed = true ∨ g.rank < f.rank) := by
  induction fuel generalizing f changed with
  | zero => exact absurd hfuel (Nat.not_lt_zero _)
  | succ fuel ih =>
    obtain ⟨block, hb⟩ := exists_block? hid
    cases hd : decideBranch block.instructions with
    | none =>
      have hlinks := f.proxyLinks_le id
      exact hl.exists_simplify_decided table used hid
        (by rwa [instructionsOf_of_block? hb]) (by omega)
    | some p =>
      obtain ⟨l, target⟩ := p
      have hdecide : block.decide? = some ⟨l, target.or block.next, none⟩ := by
        rw [Block.decide?, hd]
        rfl
      have hrw : f.Rewrite table used id (f.setBlock id ⟨l, target.or block.next, none⟩) :=
        ⟨block, _, hb, .decide hd, rfl⟩
      have hcount := countP_isBranch_lt_of_decideBranch hd
      rw [instructionsOf_of_block? hb] at hfuel
      obtain ⟨g, changed', hsimp, hrws, -⟩ := @ih _ true (hl.rewrite hrw)
        (by rw [hrw.size_eq]; exact hid)
        (by rw [instructionsOf_of_block? (block?_setBlock_self hb _)]; dsimp only; omega)
      refine ⟨g, changed', ?_, hrws.head ⟨id, rfl, hrw⟩, fun _ => .inr ?_⟩
      · simp only [simplifyWithin, block_eq_ok.2 hb, hdecide, bind, Except.bind]
        exact hsimp
      · exact hrws.rank_le.trans_lt (rank_setBlock_lt_of_weight hb (weight_lt_of_decideBranch hd))

theorem Linked.exists_simplify (table : SymbolTable) (used : VariableSet) (hl : f.Linked)
    (hid : id < f.blocks.size) :
    ∃ g changed, f.simplify id = .ok (g, changed) ∧ f.Rewrites table used id g ∧
      (changed = true → g.rank < f.rank) := by
  obtain ⟨block, hb⟩ := exists_block? hid
  have hfuel : (f.instructionsOf id).countP Instruction.isBranch + 2 <
      2 * block.instructions.countP Instruction.isBranch + 3 := by
    rw [instructionsOf_of_block? hb]
    omega
  obtain ⟨g, changed, hsimp, hrws, hrank⟩ :=
    @Linked.exists_simplifyWithin id f false table used _ hl hid hfuel
  refine ⟨g, changed, ?_, hrws, fun h => (hrank h).resolve_left (by simp)⟩
  simp only [simplify, block_eq_ok.2 hb, bind, Except.bind]
  exact hsimp

end Function

/-! ## Passes -/

/-- A pass that is run on a block of a linked function rewrites the block, and
gets somewhere if it reports a change. -/
theorem Pass.exists_runOn (pass : Pass) (table : SymbolTable) (used : VariableSet) {id : BlockId}
    {f : Function} (hl : f.Linked) (hid : id < f.blocks.size) :
    ∃ g changed, pass.runOn table used f id = .ok (g, changed) ∧ f.Rewrites table used id g ∧
      (changed = true → g.rank < f.rank) := by
  obtain ⟨block, hb⟩ := Function.exists_block? hid
  have hone : ∀ {new}, block.Rewrite table used f new →
      f.Rewrites table used id (f.setBlock id new) :=
    fun h => .single ⟨id, rfl, block, _, hb, h, rfl⟩
  simp only [Pass.runOn, Function.block_eq_ok.2 hb, bind, Except.bind]
  cases pass with
  | folding =>
    exact ⟨_, _, rfl, hone .fold, fun h => (Function.rank_fold hb).2 (by simpa using h)⟩
  | propagation =>
    exact ⟨_, _, rfl, hone .propagate, fun h => (Function.rank_propagate hb).2 (by simpa using h)⟩
  | deadCode =>
    exact ⟨_, _, rfl, hone .prune, fun h => (Function.rank_prune hb).2 (by simpa using h)⟩
  | branches => exact hl.exists_simplify table used hid

/-! ## Rounds -/

namespace Function

variable {f g : Function}

theorem exists_visits {inside : BlockId → Prop} (hl : f.Linked)
    (hlt : ∀ id, inside id → id < f.blocks.size) {steps : List (BlockId × Pass)}
    (hsteps : ∀ step ∈ steps, inside step.1) {changes : List Change}
    (hg : f.RewritesIn table used inside g) (hrank : changes ≠ [] → g.rank < f.rank) :
    ∃ g' changes', steps.foldlM (visit table used) (g, changes) = .ok (g', changes') ∧
      f.RewritesIn table used inside g' ∧ (changes' ≠ [] → g'.rank < f.rank) := by
  induction steps generalizing g changes with
  | nil => exact ⟨g, changes, rfl, hg, hrank⟩
  | cons step steps ih =>
    obtain ⟨id, pass⟩ := step
    have hid : inside id := hsteps (id, pass) (by simp)
    obtain ⟨g', changed, hrun, hrws, hless⟩ := pass.exists_runOn table used (hg.linked hl)
      (by rw [hg.size_eq]; exact hlt id hid)
    have hvisit : visit table used (g, changes) (id, pass) =
        .ok (g', if changed then changes ++ [⟨pass, id, g'.name⟩] else changes) := by
      simp [visit, hrun, bind, Except.bind, pure, Except.pure]
    rw [List.foldlM_cons, hvisit]
    refine ih (fun s hs => hsteps s (by simp [hs])) (hg.trans (hrws.rewritesIn hid)) ?_
    intro hne
    cases changed with
    | true => exact (hless rfl).trans_le hg.rank_le
    | false => exact hrws.rank_le.trans_lt (hrank hne)

def Round (table : SymbolTable) (f g : Function) : Prop :=
  f.RewritesIn table (f.usedBy f.preorder) (· ∈ f.preorder) g

theorem Linked.exists_round (hl : f.Linked) (passes : List Pass) (table : SymbolTable) :
    ∃ g changes, f.round passes table = .ok (g, changes) ∧ f.Round table g ∧
      (changes ≠ [] → g.rank < f.rank) := by
  simp only [round, hl.order, hl.used, bind, Except.bind]
  refine exists_visits hl (fun id hid => lt_size_of_mem_preorder hl.exit hid) ?_ .refl
    (fun h => absurd rfl h)
  intro step hstep
  obtain ⟨id, hid, hstep⟩ := List.mem_flatMap.1 hstep
  obtain ⟨pass, -, rfl⟩ := List.mem_map.1 hstep
  exact hid

abbrev Rounds (table : SymbolTable) : Function → Function → Prop :=
  Relation.ReflTransGen (Round table)

theorem detours_le (f : Function) : f.detours ≤ f.length + 2 * f.blocks.size := by
  have hsize : f.blocks.size = f.blocks.toList.length := by simp [Arena.toList, Arena.size]
  have hle : ∀ l : List Block, (l.map (Block.detours f.isProxy)).sum ≤
      (l.map fun block => block.instructions.length).sum + 2 * l.length := by
    intro l
    induction l with
    | nil => exact Nat.zero_le _
    | cons block l ih =>
      have hblock := block.detours_le f.isProxy
      simp only [List.map_cons, List.sum_cons, List.length_cons]
      omega
  rw [hsize]
  exact hle _

/-- Rank as a number, for functions with at most so many detours. -/
def potential (c : Nat) (f : Function) : Nat :=
  f.weight * (c + 1) + f.detours

theorem potential_lt_of_rank_lt {c : Nat} (hg : g.detours ≤ c) (h : g.rank < f.rank) :
    g.potential c < f.potential c := by
  unfold potential
  rcases Prod.Lex.toLex_lt_toLex.1 h with h | ⟨h, h'⟩
  · dsimp only at h
    have hmul := Nat.mul_le_mul_right (c + 1) (Nat.succ_le_of_lt h)
    rw [Nat.succ_mul] at hmul
    omega
  · dsimp only at h h'
    rw [h]
    omega

theorem potential_le_of_rank_le {c : Nat} (hg : g.detours ≤ c) (h : g.rank ≤ f.rank) :
    g.potential c ≤ f.potential c := by
  rcases lt_or_eq_of_le h with h | h
  · exact (potential_lt_of_rank_lt hg h).le
  · obtain ⟨hweight, hdetours⟩ := Prod.mk.inj (toLex.injective h)
    rw [potential, hweight, hdetours]
    exact le_rfl

end Function

namespace Module

def potential (c : Nat) (m : Module) : Nat :=
  (m.functions.map (Function.potential c)).sum

def RoundResult (table : SymbolTable) (f : Function) (result : Function × List Change) : Prop :=
  f.Round table result.1 ∧ (result.2 ≠ [] → result.1.rank < f.rank)

variable {c : Nat} {m : Module}

theorem sum_potential_lt {table : SymbolTable} {fs : List Function}
    {results : List (Function × List Change)} (h : List.Forall₂ (RoundResult table) fs results)
    (hc : ∀ f ∈ fs, f.length + 2 * f.blocks.size ≤ c) :
    ((results.map Prod.fst).map (Function.potential c)).sum ≤
        (fs.map (Function.potential c)).sum ∧
      (results.flatMap Prod.snd ≠ [] →
        ((results.map Prod.fst).map (Function.potential c)).sum <
          (fs.map (Function.potential c)).sum) := by
  induction h with
  | nil => exact ⟨le_rfl, fun h => absurd rfl h⟩
  | @cons f result fs results hresult _ ih =>
    obtain ⟨hle, hlt⟩ := ih fun f hf => hc f (by simp [hf])
    obtain ⟨hround, hrank⟩ := hresult
    have hdetours : result.1.detours ≤ c := by
      have hf := hc f (by simp)
      have hlength := Function.RewritesIn.length_le hround
      have hsize := Function.RewritesIn.size_eq hround
      have hd := result.1.detours_le
      omega
    have hfirst := Function.potential_le_of_rank_le hdetours (Function.RewritesIn.rank_le hround)
    simp only [List.map_cons, List.sum_cons, List.flatMap_cons]
    refine ⟨by omega, fun hne => ?_⟩
    by_cases hempty : result.2 = []
    · have := hlt (by rwa [hempty, List.nil_append] at hne)
      omega
    · have := Function.potential_lt_of_rank_lt hdetours (hrank hempty)
      omega

def Linked (m : Module) : Prop :=
  ∀ f ∈ m.functions, f.Linked

theorem Linked.exists_round (hl : m.Linked) (passes : List Pass)
    (hc : ∀ f ∈ m.functions, f.length + 2 * f.blocks.size ≤ c) :
    ∃ m' changes, m.round passes = .ok (m', changes) ∧ m'.symbols = m.symbols ∧
      List.Forall₂ (Function.Round m.symbols) m.functions m'.functions ∧
      (changes ≠ [] → m'.potential c < m.potential c) := by
  obtain ⟨results, hmap, hresults⟩ := exists_mapM (l := m.functions)
    (g := Function.round passes m.symbols) (P := RoundResult m.symbols) (by
      intro f hf
      obtain ⟨g, changes, hround, hg, hrank⟩ := (hl f hf).exists_round passes m.symbols
      exact ⟨(g, changes), hround, hg, hrank⟩)
  refine ⟨{ m with functions := results.map Prod.fst }, results.flatMap Prod.snd, ?_, rfl, ?_,
    (sum_potential_lt hresults hc).2⟩
  · rw [round, hmap]
    rfl
  · exact List.forall₂_map_right_iff.2 (hresults.imp fun _ _ h => h.1)

theorem Linked.exists_repeatRounds {passes : List Pass} {fuel : Nat} (hl : m.Linked)
    (hc : ∀ f ∈ m.functions, f.length + 2 * f.blocks.size ≤ c) (hfuel : m.potential c < fuel)
    (rounds : Nat) (changes : List Change) :
    ∃ o, repeatRounds passes fuel ⟨m, rounds, changes⟩ = .ok o ∧ o.result.symbols = m.symbols ∧
      List.Forall₂ (Function.Rounds m.symbols) m.functions o.result.functions := by
  induction fuel generalizing m rounds changes with
  | zero => exact absurd hfuel (Nat.not_lt_zero _)
  | succ fuel ih =>
    obtain ⟨m', new, hround, hsymbols, hfunctions, hless⟩ := hl.exists_round passes hc
    simp only [repeatRounds, hround, bind_ok]
    by_cases hnew : new = []
    · refine ⟨⟨m', rounds + 1, changes⟩, by simp [hnew]; rfl, hsymbols, ?_⟩
      exact hfunctions.imp fun _ _ h => .single h
    · have hl' : m'.Linked := by
        intro g hg
        obtain ⟨f, hf, hfg⟩ := forall₂_exists_left hfunctions hg
        exact Function.RewritesIn.linked hfg (hl f hf)
      have hc' : ∀ g ∈ m'.functions, g.length + 2 * g.blocks.size ≤ c := by
        intro g hg
        obtain ⟨f, hf, hfg⟩ := forall₂_exists_left hfunctions hg
        have hlength := Function.RewritesIn.length_le hfg
        have hsize := Function.RewritesIn.size_eq hfg
        have := hc f hf
        omega
      have hpotential := hless hnew
      obtain ⟨o, ho, hsymbols', hfunctions'⟩ :=
        ih hl' hc' (by omega) (rounds + 1) (changes ++ new)
      refine ⟨o, by simpa [hnew] using ho, hsymbols'.trans hsymbols, ?_⟩
      rw [hsymbols] at hfunctions'
      exact forall₂_trans (fun h h' => .head h h') hfunctions hfunctions'

/-! ## The bound on the number of rounds -/

theorem weight_blocks (l : List Block) :
    weight (l.flatMap Block.instructions) =
      (l.map fun block => weight block.instructions).sum := by
  induction l with
  | nil => rfl
  | cons block l ih => rw [List.flatMap_cons, weight_append, ih, List.map_cons, List.sum_cons]

theorem length_instructions (f : Function) :
    (f.blocks.toList.flatMap Block.instructions).length = f.length :=
  List.length_flatMap

theorem length_toList (f : Function) : f.blocks.toList.length = f.blocks.size := by
  simp [Arena.toList, Arena.size]

theorem foldr_weight (l : List Instruction) :
    l.foldr (fun i total => i.weight + total) 0 = weight l := by
  rw [weight, List.sum, List.foldr_map]

theorem sum_potential_le (c : Nat) (fs : List Function) :
    (fs.map (Function.potential c)).sum ≤
      weight ((fs.flatMap fun f => f.blocks.toList).flatMap Block.instructions) * (c + 1) +
        (((fs.flatMap fun f => f.blocks.toList).flatMap Block.instructions).length +
          2 * (fs.flatMap fun f => f.blocks.toList).length) := by
  induction fs with
  | nil => simp
  | cons f fs ih =>
    have hdetours := f.detours_le
    have hweight : weight (f.blocks.toList.flatMap Block.instructions) = f.weight :=
      weight_blocks _
    simp only [List.map_cons, List.sum_cons, List.flatMap_cons, List.flatMap_append,
      List.length_append, weight_append, hweight, length_instructions, length_toList, Nat.add_mul,
      Function.potential] at ih ⊢
    omega

theorem potential_lt_roundBound (m : Module) :
    m.potential ((m.blocks.flatMap Block.instructions).length + 2 * m.blocks.length) <
      m.roundBound := by
  have hle := sum_potential_le
    ((m.blocks.flatMap Block.instructions).length + 2 * m.blocks.length) m.functions
  unfold roundBound
  simp only [foldr_weight]
  generalize hw : weight (m.blocks.flatMap Block.instructions) = w
  generalize hn : (m.blocks.flatMap Block.instructions).length = n at hle ⊢
  generalize hb : m.blocks.length = b at hle ⊢
  have hmul : (w + 1) * (n + 2 * b + 1) ≤ (w + 1) * ((n + 1) * (2 * b + 1) + 1) := by
    apply Nat.mul_le_mul_left
    have : (n + 1) * (2 * b + 1) = n * (2 * b) + n + 2 * b + 1 := by ring
    omega
  have hexpand : (w + 1) * (n + 2 * b + 1) = w * (n + 2 * b + 1) + (n + 2 * b) + 1 := by ring
  unfold blocks at hw hn hb
  rw [hw, hn, hb] at hle
  unfold potential
  omega

theorem length_le_of_mem {f : Function} (hf : f ∈ m.functions) :
    f.length + 2 * f.blocks.size ≤
      (m.blocks.flatMap Block.instructions).length + 2 * m.blocks.length := by
  obtain ⟨fs, gs, hsplit⟩ := List.append_of_mem hf
  simp only [blocks, hsplit, List.flatMap_append, List.flatMap_cons, List.length_append,
    length_instructions, length_toList]
  omega

/-- Optimizing a module whose links lead to blocks comes to an end, and all it
does is rounds of rewrites. -/
theorem Linked.exists_optimize (hl : m.Linked) (passes : List Pass) :
    ∃ o, m.optimize passes = .ok o ∧ o.result.symbols = m.symbols ∧
      List.Forall₂ (Function.Rounds m.symbols) m.functions o.result.functions := by
  unfold optimize
  split
  · exact ⟨⟨m, 0, []⟩, rfl, rfl, List.forall₂_same.2 fun _ _ => .refl⟩
  · exact hl.exists_repeatRounds (fun f hf => length_le_of_mem hf) m.potential_lt_roundBound 0 []

end Module

end Cinder.Flow
