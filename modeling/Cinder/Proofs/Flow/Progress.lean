import Cinder.Proofs.Flow.Rewrites
import Mathlib.Algebra.GroupWithZero.Nat
import Mathlib.Data.Prod.Lex

/-!
# Progress of optimization

A rewrite that is reported as a change makes instructions fewer or simpler, or
else it redirects a link that led to a block that only jumps.  So no function can
be changed forever.
-/

namespace Cinder.Flow

variable {table : SymbolTable} {used : VariableSet}

/-! ## The weight of instructions -/

/-- What some instructions contribute to the bound on the number of rounds. -/
def weight (l : List Instruction) : Nat :=
  (l.map Instruction.weight).sum

@[simp] theorem weight_cons (i : Instruction) (l : List Instruction) :
    weight (i :: l) = i.weight + weight l := by
  simp [weight]

theorem weight_append (l l' : List Instruction) : weight (l ++ l') = weight l + weight l' := by
  simp [weight]

theorem Instruction.weight_pos (i : Instruction) : 0 < i.weight := by
  simp only [Instruction.weight]
  omega

theorem map_eq_or_weight_lt {g : Instruction → Instruction}
    (hg : ∀ i, g i = i ∨ (g i).weight < i.weight) (l : List Instruction) :
    l.map g = l ∨ weight (l.map g) < weight l := by
  induction l with
  | nil => exact .inl rfl
  | cons i l ih =>
    rw [List.map_cons, weight_cons, weight_cons]
    rcases hg i with hi | hi <;> rcases ih with hl | hl
    · exact .inl (by rw [hi, hl])
    · rw [hi]
      omega
    · rw [hl]
      omega
    · omega

variable {l l' : List Instruction} {α : Type}

theorem sublist_eq_or_weight_lt (h : l'.Sublist l) :
    l' = l ∨ weight l' < weight l := by
  induction h with
  | slnil => exact .inl rfl
  | @cons l' l i _ ih =>
    have hpos := i.weight_pos
    rw [weight_cons]
    rcases ih with rfl | ih <;> omega
  | @cons_cons l' l i _ ih =>
    rw [weight_cons, weight_cons]
    rcases ih with rfl | ih
    · exact .inl rfl
    · omega

theorem fold_eq_or_weight_lt (i : Instruction) : i.fold = i ∨ i.fold.weight < i.weight := by
  unfold Instruction.fold Instruction.fold?
  split
  · rename_i result lhs op rhs operandTy resultTy
    cases lhs.binary op rhs with
    | none => exact .inl rfl
    | some value => exact .inr (Nat.lt_succ_self 1)
  · exact .inr (Nat.lt_succ_self 1)
  · exact .inl rfl

theorem map_propagate_eq_or_lt (known : List (Variable × Constant)) (os : List Operand) :
    os.map (Operand.propagate known) = os ∨
      ((os.map (Operand.propagate known)).filterMap Operand.toVariable?).length <
        (os.filterMap Operand.toVariable?).length := by
  induction os with
  | nil => exact .inl rfl
  | cons o os ih =>
    cases o with
    | constant c =>
      rcases ih with ih | ih
      · exact .inl (by rw [List.map_cons, ih, Operand.propagate])
      · exact .inr ih
    | var v =>
      cases hv : known.lookup v with
      | none =>
        have ho : Operand.propagate known (.var v) = .var v := by simp [Operand.propagate, hv]
        rw [List.map_cons, ho]
        rcases ih with ih | ih
        · exact .inl (by rw [ih])
        · right
          simpa [Operand.toVariable?] using ih
      | some c =>
        have ho : Operand.propagate known (.var v) = .constant c := by
          simp [Operand.propagate, hv]
        right
        rw [List.map_cons, ho]
        simp only [Operand.toVariable?, List.filterMap_cons, List.length_cons]
        rcases ih with ih | ih
        · rw [ih]
          omega
        · omega

namespace Instruction

theorem mapReplaceable_eq_self {g : Operand → Operand} {i : Instruction}
    (h : i.replaceable.map g = i.replaceable) : i.mapReplaceable g = i := by
  cases i with
  | ret value =>
    cases value with
    | none => rfl
    | some p =>
      have hp : g p.1 = p.1 := by simpa [replaceable, operands] using h
      simp [mapReplaceable, hp]
  | branch | call | binary | cast | store => simp_all [replaceable, operands, mapReplaceable]
  | _ => rfl

end Instruction

theorem propagate_eq_or_weight_lt (known : List (Variable × Constant)) (i : Instruction) :
    i.mapReplaceable (Operand.propagate known) = i ∨
      (i.mapReplaceable (Operand.propagate known)).weight < i.weight := by
  rcases map_propagate_eq_or_lt known i.replaceable with h | h
  · exact .inl (Instruction.mapReplaceable_eq_self h)
  · right
    rw [← Instruction.replaceable_mapReplaceable] at h
    cases i with
    | load => exact absurd h (by simp [Instruction.replaceable])
    | _ => exact Nat.add_lt_add_left h _

theorem weight_lt_of_decideBranch {target : Option BlockId}
    (h : decideBranch l = some (l', target)) : weight l' < weight l := by
  obtain ⟨done, c, t, rest, rfl, ⟨rfl, -⟩ | ⟨rfl, -⟩⟩ := exists_branch_of_decideBranch h
  all_goals
    have hgoto : weight [.goto t] = 1 := rfl
    have hbranch : (Instruction.branch (.constant c) t).weight = 2 := rfl
    rw [weight_append, weight_append, weight_cons (.branch ..)]
    omega

theorem length_le_of_decideBranch {target : Option BlockId}
    (h : decideBranch l = some (l', target)) : l'.length ≤ l.length := by
  obtain ⟨done, c, t, rest, rfl, ⟨rfl, -⟩ | ⟨rfl, -⟩⟩ := exists_branch_of_decideBranch h
  · simp
  · simp

@[simp] theorem weight_map_retarget (source target : BlockId) (l : List Instruction) :
    weight (l.map (Instruction.retarget source target)) = weight l := by
  unfold weight
  rw [List.map_map]
  congr 1
  apply List.map_congr_left
  intro i _
  cases i <;> rfl

/-! ## Detours -/

theorem countP_map_le {β : Type} {p : α → Bool} {q : β → Bool} {g : α → β} {l : List α}
    (h : ∀ a ∈ l, q (g a) = true → p a = true) : (l.map g).countP q ≤ l.countP p := by
  rw [List.countP_map]
  exact List.countP_mono_left h

theorem countP_map_lt {β : Type} {p : α → Bool} {q : β → Bool} {g : α → β} {l : List α}
    (h : ∀ a ∈ l, q (g a) = true → p a = true) {a : α} (ha : a ∈ l) (hp : p a = true)
    (hq : q (g a) = false) : (l.map g).countP q < l.countP p := by
  induction l with
  | nil => cases ha
  | cons b l ih =>
    have hl : ∀ a ∈ l, q (g a) = true → p a = true := fun a ha => h a (by simp [ha])
    rw [List.map_cons, List.countP_cons, List.countP_cons]
    rcases List.mem_cons.1 ha with rfl | ha
    · have hle := countP_map_le hl
      rw [if_pos hp, if_neg (by simp [hq])]
      omega
    · have hlt := ih hl ha
      have hb := h b (by simp)
      cases hqb : q (g b) with
      | true =>
        rw [hb hqb]
        omega
      | false =>
        rw [if_neg (by simp)]
        omega

def Instruction.target? : Instruction → Option BlockId
  | .goto t => some t
  | .branch _ t => some t
  | _ => none

namespace Block

def jumps (block : Block) (t : BlockId) : Bool :=
  block.instructions.any (Instruction.jumpsTo t)

/-- The jumps of a block that lead to a block that only jumps, and the links that
do so without a jump. -/
def detours (proxy : BlockId → Bool) (block : Block) : Nat :=
  block.instructions.countP (fun i => i.target?.any proxy) +
    block.successors.countP (fun n => proxy n && !block.jumps n)

theorem detours_le (proxy : BlockId → Bool) (block : Block) :
    block.detours proxy ≤ block.instructions.length + 2 :=
  Nat.add_le_add List.countP_le_length (List.countP_le_length.trans block.length_successors_le)

theorem detours_le_of_links {proxy : BlockId → Bool} {block new : Block}
    (hsame : new.instructions = block.instructions)
    (hnext : new.next = block.next ∨ ∃ t, new.next = some t ∧ .goto t ∈ block.instructions)
    (hbranch : new.branch = block.branch ∨ new.branch = none) :
    new.detours proxy ≤ block.detours proxy := by
  have hjumps : new.jumps = block.jumps := by
    unfold jumps
    rw [hsame]
  unfold detours
  rw [hsame, hjumps, successors, successors, List.countP_append, List.countP_append]
  have hn : new.next.toList.countP (fun n => proxy n && !block.jumps n) ≤
      block.next.toList.countP (fun n => proxy n && !block.jumps n) := by
    rcases hnext with hnext | ⟨t, hnext, ht⟩
    · rw [hnext]
    · have hjump : block.jumps t = true := by
        simp only [jumps, List.any_eq_true]
        exact ⟨.goto t, ht, by simp [Instruction.jumpsTo]⟩
      simp [hnext, hjump]
  have hb : new.branch.toList.countP (fun n => proxy n && !block.jumps n) ≤
      block.branch.toList.countP (fun n => proxy n && !block.jumps n) := by
    rcases hbranch with hbranch | hbranch <;> rw [hbranch]
    exact Nat.zero_le _
  omega

theorem successors_redirect (source target : BlockId) (block : Block) :
    (block.redirect source target).successors =
      block.successors.map fun n => if n = source then target else n := by
  rcases block with ⟨l, next, branch⟩
  cases next <;> cases branch <;>
    simp only [redirect, successors, Function.redirect_link] <;> rfl

section

variable {proxy : BlockId → Bool} {source target : BlockId} (htarget : proxy target = false)

include htarget

theorem any_target_retarget (i : Instruction)
    (h : (i.retarget source target).target?.any proxy = true) : i.target?.any proxy = true := by
  cases i with
  | goto t =>
    by_cases ht : t = source
    · simp [Instruction.retarget, Instruction.target?, ht, htarget] at h
    · simpa [Instruction.retarget, ht] using h
  | branch condition t =>
    by_cases ht : t = source
    · simp [Instruction.retarget, Instruction.target?, ht, htarget] at h
    · simpa [Instruction.retarget, ht] using h
  | _ => cases h

theorem detour_redirect (block : Block) (n : BlockId)
    (h : (proxy (if n = source then target else n) &&
      !(block.redirect source target).jumps (if n = source then target else n)) = true) :
    (proxy n && !block.jumps n) = true := by
  by_cases hn : n = source
  · simp [hn, htarget] at h
  · rw [if_neg hn, Bool.and_eq_true, Bool.not_eq_true'] at h
    refine Bool.and_eq_true_iff.2 ⟨h.1, ?_⟩
    rw [Bool.not_eq_true', ← Bool.not_eq_true]
    intro hjump
    obtain ⟨i, hi, hin⟩ := List.any_eq_true.1 hjump
    have hkept : (i.retarget source target).jumpsTo n = true := by
      cases i with
      | goto t =>
        obtain rfl := beq_iff_eq.1 hin
        rw [Instruction.retarget, if_neg hn]
        exact hin
      | branch condition t =>
        obtain rfl := beq_iff_eq.1 hin
        rw [Instruction.retarget, if_neg hn]
        exact hin
      | _ => cases hin
    have hany : (block.redirect source target).jumps n = true :=
      List.any_eq_true.2 ⟨_, List.mem_map_of_mem hi, hkept⟩
    rw [h.2] at hany
    cases hany

theorem detours_redirect_le (block : Block) :
    (block.redirect source target).detours proxy ≤ block.detours proxy := by
  unfold detours
  rw [successors_redirect]
  exact Nat.add_le_add (countP_map_le fun i _ => any_target_retarget htarget i)
    (countP_map_le fun n _ => detour_redirect htarget block n)

theorem detours_redirect_lt {block : Block} (hsource : proxy source = true)
    (hmem : source ∈ block.successors) :
    (block.redirect source target).detours proxy < block.detours proxy := by
  unfold detours
  rw [successors_redirect]
  cases hjump : block.jumps source with
  | true =>
    obtain ⟨i, hi, hin⟩ := List.any_eq_true.1 hjump
    refine Nat.add_lt_add_of_lt_of_le (countP_map_lt
      (fun i _ => any_target_retarget htarget i) hi ?_ ?_)
      (countP_map_le fun n _ => detour_redirect htarget block n)
    · cases i with
      | goto t => simpa [Instruction.target?, beq_iff_eq.1 hin] using hsource
      | branch condition t => simpa [Instruction.target?, beq_iff_eq.1 hin] using hsource
      | _ => cases hin
    · cases i with
      | goto t =>
        simpa [Instruction.retarget, Instruction.target?, beq_iff_eq.1 hin] using htarget
      | branch condition t =>
        simpa [Instruction.retarget, Instruction.target?, beq_iff_eq.1 hin] using htarget
      | _ => cases hin
  | false =>
    refine Nat.add_lt_add_of_le_of_lt (countP_map_le fun i _ => any_target_retarget htarget i)
      (countP_map_lt (fun n _ => detour_redirect htarget block n) hmem ?_ ?_)
    · simp [hsource, hjump]
    · simp [htarget]

end

end Block

/-! ## The rank of a function -/

theorem sum_map_set (g : α → Nat) {l : List α} {n : Nat} {a : α} (h : l[n]? = some a) (b : α) :
    ((l.set n b).map g).sum + g a = (l.map g).sum + g b := by
  induction l generalizing n with
  | nil => simp at h
  | cons c l ih =>
    cases n with
    | zero =>
      obtain rfl : c = a := by simpa using h
      simp only [List.set_cons_zero, List.map_cons, List.sum_cons]
      omega
    | succ n =>
      have := ih (n := n) (by simpa using h)
      simp only [List.set_cons_succ, List.map_cons, List.sum_cons]
      omega

namespace Function

def total (f : Function) (g : Block → Nat) : Nat :=
  (f.blocks.toList.map g).sum

variable {f f' : Function} {id : BlockId} {block : Block}

theorem total_setBlock (hb : f.block? id = some block) (new : Block) (g : Block → Nat) :
    (f.setBlock id new).total g + g block = f.total g + g new := by
  have hget : f.blocks.toList[id]? = some block := by
    rw [← hb]
    simp [Arena.toList, block?, Arena.get?]
  have hset : (f.setBlock id new).blocks.toList = f.blocks.toList.set id new := by
    simp [setBlock, Arena.set, Arena.toList]
  rw [total, hset]
  exact sum_map_set g hget new

def isProxy (f : Function) (id : BlockId) : Bool :=
  (f.block? id).any fun block => block.proxyTarget?.isSome

theorem isProxy_of_block? (h : f.block? id = some block) :
    f.isProxy id = block.proxyTarget?.isSome := by
  rw [isProxy, h]
  rfl

theorem isProxy_setBlock {new : Block} (hb : f.block? id = some block)
    (h : new.proxyTarget?.isSome = block.proxyTarget?.isSome) :
    (f.setBlock id new).isProxy = f.isProxy := by
  funext j
  unfold isProxy
  rw [block?_setBlock hb]
  split
  · rename_i hj
    rw [hj, hb]
    exact h
  · rfl

def weight (f : Function) : Nat :=
  f.total fun block => Flow.weight block.instructions

def detours (f : Function) : Nat :=
  f.total (Block.detours f.isProxy)

/-- What makes instructions fewer or simpler comes first, then detours. -/
def rank (f : Function) : Nat ×ₗ Nat :=
  toLex (f.weight, f.detours)

def length (f : Function) : Nat :=
  f.total fun block => block.instructions.length

theorem rank_setBlock_lt_of_weight {new : Block} (hb : f.block? id = some block)
    (h : Flow.weight new.instructions < Flow.weight block.instructions) :
    (f.setBlock id new).rank < f.rank := by
  have htotal := total_setBlock hb new fun block => Flow.weight block.instructions
  refine Prod.Lex.toLex_lt_toLex.2 (.inl ?_)
  dsimp only [weight]
  omega

section

variable {f : Function} {id : BlockId} {block new : Block} (hb : f.block? id = some block)
  (hproxy : new.proxyTarget?.isSome = block.proxyTarget?.isSome)
  (hweight : Flow.weight new.instructions = Flow.weight block.instructions)

include hb hproxy hweight

theorem rank_setBlock_le_of_detours (h : new.detours f.isProxy ≤ block.detours f.isProxy) :
    (f.setBlock id new).rank ≤ f.rank := by
  have hw := total_setBlock hb new fun block => Flow.weight block.instructions
  have hd := total_setBlock hb new (Block.detours f.isProxy)
  refine Prod.Lex.toLex_le_toLex.2 (.inr ⟨?_, ?_⟩)
  · dsimp only [weight]
    omega
  · dsimp only [detours]
    rw [isProxy_setBlock hb hproxy]
    omega

theorem rank_setBlock_lt_of_detours (h : new.detours f.isProxy < block.detours f.isProxy) :
    (f.setBlock id new).rank < f.rank := by
  have hw := total_setBlock hb new fun block => Flow.weight block.instructions
  have hd := total_setBlock hb new (Block.detours f.isProxy)
  refine Prod.Lex.toLex_lt_toLex.2 (.inr ⟨?_, ?_⟩)
  · dsimp only [weight]
    omega
  · dsimp only [detours]
    rw [isProxy_setBlock hb hproxy]
    omega

end

theorem proxyTarget?_redirect (source target : BlockId) (block : Block) :
    (block.redirect source target).proxyTarget? =
      block.proxyTarget?.map fun k => if k = source then target else k := by
  obtain ⟨l, next, branch⟩ := block
  match l with
  | [] => rfl
  | [i] => cases i <;> rfl
  | [i, j] =>
    cases i with
    | label => cases j <;> rfl
    | _ => rfl
  | i :: j :: k :: l =>
    cases i with
    | label => cases j <;> rfl
    | _ => rfl

theorem isSome_proxyTarget?_redirect (source target : BlockId) (block : Block) :
    (block.redirect source target).proxyTarget?.isSome = block.proxyTarget?.isSome := by
  rw [proxyTarget?_redirect, Option.isSome_map]

section

variable {f : Function} {id : BlockId} {block : Block} (hb : f.block? id = some block)

include hb

theorem rank_fold :
    (f.setBlock id block.fold).rank ≤ f.rank ∧
      (block.fold ≠ block → (f.setBlock id block.fold).rank < f.rank) := by
  rcases map_eq_or_weight_lt fold_eq_or_weight_lt block.instructions with h | h
  · have hsame : block.fold = block := by rw [Block.fold, h]
    rw [hsame]
    exact ⟨rank_setBlock_le_of_detours hb rfl rfl (Nat.le_refl _), fun hne => absurd rfl hne⟩
  · have hlt : (f.setBlock id block.fold).rank < f.rank := rank_setBlock_lt_of_weight hb h
    exact ⟨hlt.le, fun _ => hlt⟩

theorem rank_propagate :
    (f.setBlock id (block.propagate table)).rank ≤ f.rank ∧
      (block.propagate table ≠ block → (f.setBlock id (block.propagate table)).rank < f.rank) := by
  rcases map_eq_or_weight_lt (propagate_eq_or_weight_lt (block.known table)) block.instructions
    with h | h
  · have hsame : block.propagate table = block := by rw [Block.propagate, h]
    rw [hsame]
    exact ⟨rank_setBlock_le_of_detours hb rfl rfl (Nat.le_refl _), fun hne => absurd rfl hne⟩
  · have hlt : (f.setBlock id (block.propagate table)).rank < f.rank :=
      rank_setBlock_lt_of_weight hb h
    exact ⟨hlt.le, fun _ => hlt⟩

theorem rank_prune :
    (f.setBlock id (block.prune table used)).rank ≤ f.rank ∧
      ((block.prune table used).instructions.length ≠ block.instructions.length →
        (f.setBlock id (block.prune table used)).rank < f.rank) := by
  have hsub : (block.prune table used).instructions.Sublist block.instructions := by
    rw [Block.instructions_prune]
    exact List.filter_sublist.trans (takeThrough_sublist _ _)
  rcases sublist_eq_or_weight_lt hsub with h | h
  · refine ⟨rank_setBlock_le_of_detours hb ?_ (by rw [h]) ?_, fun hne => absurd (by rw [h]) hne⟩
    · simp only [Block.proxyTarget?, h]
    · exact Block.detours_le_of_links h block.next_cut block.branch_cut
  · have hlt := rank_setBlock_lt_of_weight hb h
    exact ⟨hlt.le, fun _ => hlt⟩

theorem rank_redirect (source : BlockId) {target : BlockId} {last : Block}
    (hlast : f.block? target = some last) (hend : last.proxyTarget? = none) :
    (f.setBlock id (block.redirect source target)).rank ≤ f.rank ∧
      (f.isProxy source = true → source ∈ block.successors →
        (f.setBlock id (block.redirect source target)).rank < f.rank) := by
  have htarget : f.isProxy target = false := by
    rw [isProxy_of_block? hlast, hend]
    rfl
  have hproxy := isSome_proxyTarget?_redirect source target block
  have hweight : Flow.weight (block.redirect source target).instructions =
      Flow.weight block.instructions := weight_map_retarget ..
  refine ⟨rank_setBlock_le_of_detours hb hproxy hweight (Block.detours_redirect_le htarget block),
    fun hsource hmem => ?_⟩
  exact rank_setBlock_lt_of_detours hb hproxy hweight
    (Block.detours_redirect_lt htarget hsource hmem)

end

/-- No rewrite takes anything back. -/
theorem Rewrite.rank_le (h : f.Rewrite table used id f') :
    f'.rank ≤ f.rank := by
  obtain ⟨block, new, hb, hrw, rfl⟩ := h
  cases hrw with
  | fold => exact (rank_fold hb).1
  | propagate => exact (rank_propagate hb).1
  | prune => exact (rank_prune hb).1
  | decide hd => exact (rank_setBlock_lt_of_weight hb (weight_lt_of_decideBranch hd)).le
  | redirect hlead hlast hend => exact (rank_redirect hb _ hlast hend).1

theorem Rewrite.length_le (h : f.Rewrite table used id f') :
    f'.length ≤ f.length := by
  obtain ⟨block, new, hb, hrw, rfl⟩ := h
  have hlength : new.instructions.length ≤ block.instructions.length := by
    cases hrw with
    | fold => exact (List.length_map _).le
    | propagate => exact (List.length_map _).le
    | prune =>
      rw [Block.instructions_prune]
      exact (List.filter_sublist.trans (takeThrough_sublist _ _)).length_le
    | decide hd => exact length_le_of_decideBranch hd
    | redirect => exact (List.length_map _).le
  have htotal := total_setBlock hb new fun block => block.instructions.length
  unfold length
  omega

theorem Rewrite.size_eq (h : f.Rewrite table used id f') :
    f'.blocks.size = f.blocks.size := by
  obtain ⟨block, new, hb, hrw, rfl⟩ := h
  exact setBlock_size new

end Function

end Cinder.Flow
