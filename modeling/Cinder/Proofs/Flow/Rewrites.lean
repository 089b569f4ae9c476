import Cinder.Flow.Optimize
import Cinder.Proofs.Flow.Branches
import Cinder.Proofs.Flow.Constants
import Cinder.Proofs.Flow.DeadCode
import Mathlib.Logic.Relation

/-!
# What a pass can do to a function

Whatever the passes are, a function changes by rewrites of single blocks, and
there are five of them.  What all five keep holds all through optimization.
-/

namespace Cinder.Flow

variable {i : Instruction} {f' : Function} {inside : BlockId → Prop}

variable {table : SymbolTable} {used : VariableSet}

/-- A block of a function and what one rewrite makes of it. -/
inductive Block.Rewrite (table : SymbolTable) (used : VariableSet) (f : Function)
    (block : Block) : Block → Prop where
  | fold : Rewrite table used f block block.fold
  | propagate : Rewrite table used f block (block.propagate table)
  | prune : Rewrite table used f block (block.prune table used)
  | decide {l target} (h : decideBranch block.instructions = some (l, target)) :
    Rewrite table used f block ⟨l, target.or block.next, none⟩
  | redirect {source target last} (hlead : f.Leads source target)
    (hlast : f.block? target = some last) (hend : last.proxyTarget? = none) :
    Rewrite table used f block (block.redirect source target)

def Function.Rewrite (table : SymbolTable) (used : VariableSet) (id : BlockId)
    (f f' : Function) : Prop :=
  ∃ block new, f.block? id = some block ∧ block.Rewrite table used f new ∧
    f' = f.setBlock id new

abbrev Function.RewritesIn (table : SymbolTable) (used : VariableSet) (inside : BlockId → Prop) :
    Function → Function → Prop :=
  Relation.ReflTransGen fun f f' => ∃ id, inside id ∧ f.Rewrite table used id f'

abbrev Function.Rewrites (table : SymbolTable) (used : VariableSet) (id : BlockId) :
    Function → Function → Prop :=
  Function.RewritesIn table used (· = id)

/-! ## Where a rewritten block leads -/

variable {l l' : List Instruction} {target : Option BlockId}

theorem mem_of_decideBranch (h : decideBranch l = some (l', target)) (hi : i ∈ l') :
    i ∈ l ∨ ∃ t condition, i = .goto t ∧ .branch condition t ∈ l := by
  obtain ⟨done, c, t, rest, rfl, ⟨rfl, -⟩ | ⟨rfl, -⟩⟩ := exists_branch_of_decideBranch h
  · exact .inl (((List.sublist_cons_self ..).append_left done).subset hi)
  · rcases List.mem_append.1 hi with hi | hi
    · exact .inl (List.mem_append_left _ hi)
    · exact .inr ⟨t, .constant c, List.mem_singleton.1 hi, by simp⟩

theorem branch_mem_of_decideBranch {t : BlockId} (h : decideBranch l = some (l', some t)) :
    ∃ condition, .branch condition t ∈ l := by
  obtain ⟨done, c, t, rest, rfl, ⟨-, ht⟩ | ⟨-, ht⟩⟩ := exists_branch_of_decideBranch h
  · cases ht
  · cases ht
    exact ⟨.constant c, by simp⟩

namespace Instruction

@[simp] theorem jumpsTo_fold (i : Instruction) (t : BlockId) : i.fold.jumpsTo t = i.jumpsTo t := by
  unfold fold fold?
  split
  · rename_i lhs op rhs _ _
    cases lhs.binary op rhs <;> rfl
  · rfl
  · rfl

@[simp] theorem jumpsTo_mapReplaceable (g : Operand → Operand) (i : Instruction) (t : BlockId) :
    (i.mapReplaceable g).jumpsTo t = i.jumpsTo t := by
  cases i <;> rfl

theorem jumpsTo_retarget {source target t : BlockId}
    (h : (i.retarget source target).jumpsTo t = true) :
    i.jumpsTo t = true ∨ i.jumpsTo source = true ∧ t = target := by
  cases i with
  | goto t' =>
    by_cases ht : t' = source
    · right
      rw [retarget, if_pos ht, jumpsTo, beq_iff_eq] at h
      exact ⟨by simp [jumpsTo, ht], h.symm⟩
    · exact .inl (by rwa [retarget, if_neg ht] at h)
  | branch condition t' =>
    by_cases ht : t' = source
    · right
      rw [retarget, if_pos ht, jumpsTo, beq_iff_eq] at h
      exact ⟨by simp [jumpsTo, ht], h.symm⟩
    · exact .inl (by rwa [retarget, if_neg ht] at h)
  | _ => cases h

@[simp] theorem uses_retarget (source target : BlockId) (i : Instruction) :
    (i.retarget source target).uses = i.uses := by
  cases i <;> rfl

end Instruction

namespace Block

/-- Whether control may be taken from the block to another by an instruction. -/
def JumpsTo (block : Block) (t : BlockId) : Prop :=
  ∃ i ∈ block.instructions, i.jumpsTo t = true

theorem mem_of_mem_prune {block : Block} (h : i ∈ (block.prune table used).instructions) :
    i ∈ block.instructions := by
  rw [instructions_prune] at h
  exact (takeThrough_sublist _ _).subset (List.mem_filter.1 h).1

theorem next_cut (block : Block) :
    block.cut.next = block.next ∨ ∃ t, block.cut.next = some t ∧ .goto t ∈ block.instructions := by
  unfold cut
  split
  · dsimp only
    split
    · rename_i t heq
      exact .inr ⟨t, rfl, (takeThrough_sublist _ _).subset (List.mem_of_getLast? heq)⟩
    · exact .inl rfl
  · exact .inl rfl

theorem branch_cut (block : Block) : block.cut.branch = block.branch ∨ block.cut.branch = none := by
  unfold cut
  split
  · dsimp only
    split
    · exact .inl rfl
    · exact .inr rfl
  · exact .inl rfl

namespace Rewrite

variable {f : Function} {block new : Block} {t : BlockId}

section

variable (h : block.Rewrite table used f new)

include h

theorem jumpsTo (ht : new.JumpsTo t) : ∃ s, block.JumpsTo s ∧ f.Leads s t := by
  obtain ⟨i, hi, ht⟩ := ht
  cases h with
  | fold =>
    obtain ⟨j, hj, rfl⟩ := List.mem_map.1 hi
    exact ⟨t, ⟨j, hj, by simpa using ht⟩, .here⟩
  | propagate =>
    obtain ⟨j, hj, rfl⟩ := List.mem_map.1 hi
    exact ⟨t, ⟨j, hj, by simpa using ht⟩, .here⟩
  | prune => exact ⟨t, ⟨i, mem_of_mem_prune hi, ht⟩, .here⟩
  | decide hd =>
    rcases mem_of_decideBranch hd hi with hi | ⟨t', condition, rfl, hmem⟩
    · exact ⟨t, ⟨i, hi, ht⟩, .here⟩
    · exact ⟨t, ⟨_, hmem, ht⟩, .here⟩
  | redirect hlead hlast hend =>
    obtain ⟨j, hj, rfl⟩ := List.mem_map.1 hi
    rcases Instruction.jumpsTo_retarget ht with ht | ⟨hs, rfl⟩
    · exact ⟨t, ⟨j, hj, ht⟩, .here⟩
    · exact ⟨_, ⟨j, hj, hs⟩, hlead⟩

theorem next (ht : new.next = some t) :
    ∃ s, (block.next = some s ∨ block.JumpsTo s) ∧ f.Leads s t := by
  cases h with
  | fold => exact ⟨t, .inl ht, .here⟩
  | propagate => exact ⟨t, .inl ht, .here⟩
  | prune =>
    change block.cut.next = some t at ht
    rcases block.next_cut with hnext | ⟨t', hnext, hmem⟩
    · exact ⟨t, .inl (hnext ▸ ht), .here⟩
    · rw [hnext, Option.some.injEq] at ht
      exact ⟨t, .inr ⟨_, hmem, by simp [Instruction.jumpsTo, ht]⟩, .here⟩
  | decide hd =>
    rcases Option.or_eq_some_iff.1 ht with ht | ⟨-, ht⟩
    · subst ht
      obtain ⟨condition, hmem⟩ := branch_mem_of_decideBranch hd
      exact ⟨t, .inr ⟨_, hmem, by simp [Instruction.jumpsTo]⟩, .here⟩
    · exact ⟨t, .inl ht, .here⟩
  | @redirect source target last hlead hlast hend =>
    simp only [Block.redirect] at ht
    split at ht
    · rename_i hs
      cases ht
      exact ⟨_, .inl hs, hlead⟩
    · exact ⟨t, .inl ht, .here⟩

theorem branch (ht : new.branch = some t) : ∃ s, block.branch = some s ∧ f.Leads s t := by
  cases h with
  | fold => exact ⟨t, ht, .here⟩
  | propagate => exact ⟨t, ht, .here⟩
  | prune =>
    change block.cut.branch = some t at ht
    rcases block.branch_cut with hbranch | hbranch <;> rw [hbranch] at ht
    · exact ⟨t, ht, .here⟩
    · cases ht
  | decide hd =>
    cases ht
  | @redirect source target last hlead hlast hend =>
    simp only [Block.redirect] at ht
    split at ht
    · rename_i hs
      cases ht
      exact ⟨_, hs, hlead⟩
    · exact ⟨t, ht, .here⟩

theorem uses (hi : i ∈ new.instructions) {v : Variable} (hv : v ∈ i.uses) :
    ∃ j ∈ block.instructions, v ∈ j.uses := by
  cases h with
  | fold =>
    obtain ⟨j, hj, rfl⟩ := List.mem_map.1 hi
    exact ⟨j, hj, Instruction.uses_fold_subset j hv⟩
  | propagate =>
    obtain ⟨j, hj, rfl⟩ := List.mem_map.1 hi
    exact ⟨j, hj, Instruction.uses_propagate_subset _ j hv⟩
  | prune => exact ⟨i, mem_of_mem_prune hi, hv⟩
  | decide hd =>
    rcases mem_of_decideBranch hd hi with hi | ⟨t', condition, rfl, hmem⟩
    · exact ⟨i, hi, hv⟩
    · simp [Instruction.uses, Instruction.operands] at hv
  | redirect hlead hlast hend =>
    obtain ⟨j, hj, rfl⟩ := List.mem_map.1 hi
    exact ⟨j, hj, by simpa using hv⟩

end

end Rewrite

end Block

/-! ## Functions whose blocks all exist -/

namespace Function

/-- All links and jumps of a function lead to its blocks. -/
structure Linked (f : Function) : Prop where
  entry : f.entry < f.blocks.size
  exit : f.exit < f.blocks.size
  next : ∀ {j block n}, f.block? j = some block → block.next = some n → n < f.blocks.size
  branch : ∀ {j block n}, f.block? j = some block → block.branch = some n → n < f.blocks.size
  jumps : ∀ {j block n}, f.block? j = some block → block.JumpsTo n → n < f.blocks.size

theorem jumpsTo_of_proxyTarget? {block : Block} {k : BlockId} (h : block.proxyTarget? = some k) :
    block.JumpsTo k := by
  refine ⟨.goto k, ?_, by simp [Instruction.jumpsTo]⟩
  rcases instructions_of_proxyTarget? h with h | ⟨j, h⟩ <;> simp [h]

variable {f : Function} {j id : BlockId}

theorem exists_block? (h : j < f.blocks.size) :
    ∃ block, f.block? j = some block := by
  cases hb : f.block? j with
  | some block => exact ⟨block, rfl⟩
  | none => exact absurd ((Arena.get?_eq_none_iff f.blocks j).1 hb) (Nat.not_le.2 h)

theorem Linked.lt_of_leads (hl : f.Linked) {target : BlockId} (h : f.Leads j target)
    (hj : j < f.blocks.size) : target < f.blocks.size := by
  induction h with
  | here => exact hj
  | proxy hb hp _ ih => exact ih (hl.jumps hb (jumpsTo_of_proxyTarget? hp))

/-- What holds of every block still does if it holds of the new one. -/
theorem forall_setBlock {old new : Block} (hb : f.block? id = some old) {Q : BlockId → Block → Prop}
    (hQ : ∀ {j block}, f.block? j = some block → Q j block) (hnew : Q id new) {block : Block}
    (h : (f.setBlock id new).block? j = some block) : Q j block := by
  rw [block?_setBlock hb] at h
  split at h
  · rename_i hj
    cases h
    exact hj ▸ hnew
  · exact hQ h

theorem Linked.rewrite (hl : f.Linked) (h : f.Rewrite table used id f') :
    f'.Linked := by
  obtain ⟨block, new, hb, hrw, rfl⟩ := h
  have hlt : ∀ {s n}, f.Leads s n → s < f.blocks.size → n < f.blocks.size := hl.lt_of_leads
  constructor
  · simpa using hl.entry
  · simpa using hl.exit
  · intro j b n hj hn
    rw [setBlock_size]
    refine forall_setBlock hb (Q := fun _ b => ∀ {n}, b.next = some n → n < f.blocks.size)
      (fun hb _ => hl.next hb) ?_ hj hn
    intro n hn
    obtain ⟨s, hs | hs, hlead⟩ := hrw.next hn
    · exact hlt hlead (hl.next hb hs)
    · exact hlt hlead (hl.jumps hb hs)
  · intro j b n hj hn
    rw [setBlock_size]
    refine forall_setBlock hb (Q := fun _ b => ∀ {n}, b.branch = some n → n < f.blocks.size)
      (fun hb _ => hl.branch hb) ?_ hj hn
    intro n hn
    obtain ⟨s, hs, hlead⟩ := hrw.branch hn
    exact hlt hlead (hl.branch hb hs)
  · intro j b n hj hn
    rw [setBlock_size]
    refine forall_setBlock hb (Q := fun _ b => ∀ {n}, b.JumpsTo n → n < f.blocks.size)
      (fun hb _ => hl.jumps hb) ?_ hj hn
    intro n hn
    obtain ⟨s, hs, hlead⟩ := hrw.jumpsTo hn
    exact hlt hlead (hl.jumps hb hs)

/-! ## Functions whose walk is closed -/

theorem Confined.inside_of_leads (hc : f.Confined inside used) {target : BlockId}
    (h : f.Leads j target) (hj : inside j) :
    inside target := by
  induction h with
  | here => exact hj
  | proxy hb hp _ ih =>
    obtain ⟨i, hi, ht⟩ := jumpsTo_of_proxyTarget? hp
    exact ih (hc.jumps hj hb hi ht)

theorem Confined.rewrite (hc : f.Confined inside used) (h : f.Rewrite table used id f') :
    f'.Confined inside used := by
  obtain ⟨block, new, hb, hrw, rfl⟩ := h
  have hjumps : ∀ {j b n}, inside j → f.block? j = some b → b.JumpsTo n → inside n :=
    fun hj hb ⟨_, hi, ht⟩ => hc.jumps hj hb hi ht
  constructor
  · exact hc.entry
  · intro j b n hj hjb hn
    refine forall_setBlock hb (Q := fun j b => inside j → ∀ {n}, b.next = some n → inside n)
      (fun hb hj => hc.next hj hb) ?_ hjb hj hn
    intro hid n hn
    obtain ⟨s, hs | hs, hlead⟩ := hrw.next hn
    · exact hc.inside_of_leads hlead (hc.next hid hb hs)
    · exact hc.inside_of_leads hlead (hjumps hid hb hs)
  · intro j b i n hj hjb hi hn
    refine forall_setBlock hb (Q := fun j b => inside j → ∀ {n}, b.JumpsTo n → inside n)
      (fun hb hj => hjumps hj hb) ?_ hjb hj ⟨i, hi, hn⟩
    intro hid n hn
    obtain ⟨s, hs, hlead⟩ := hrw.jumpsTo hn
    exact hc.inside_of_leads hlead (hjumps hid hb hs)
  · intro j b i v hj hjb hi hv
    refine forall_setBlock hb
      (Q := fun j b => inside j → ∀ {i v}, i ∈ b.instructions → v ∈ i.uses → v ∈ used)
      (fun hb hj _ _ => hc.uses hj hb) ?_ hjb hj hi hv
    intro hid i v hi hv
    obtain ⟨i', hi', hv'⟩ := hrw.uses hi hv
    exact hc.uses hid hb hi' hv'

/-! ## Functions whose blocks are tidy -/

def Tidied (table : SymbolTable) (f : Function) : Prop :=
  ∀ {j block}, f.block? j = some block → Tidy table block.instructions

end Function

theorem ReadsWritten.decideBranch {written : List Variable}
    (hd : decideBranch l = some (l', target)) (h : ReadsWritten table written l) :
    ReadsWritten table written l' := by
  obtain ⟨done, c, t, rest, rfl, ⟨rfl, -⟩ | ⟨rfl, -⟩⟩ := exists_branch_of_decideBranch hd
  · rw [readsWritten_append] at h ⊢
    refine ⟨h.1, ?_⟩
    simpa [ReadsWritten, Instruction.temporary?, Instruction.definition] using h.2.2
  · rw [readsWritten_append] at h ⊢
    exact ⟨h.1, by simp [ReadsWritten, Instruction.uses, Instruction.operands]⟩

theorem temporaries_sublist_of_decideBranch (hd : decideBranch l = some (l', target)) :
    (temporaries table l').Sublist (temporaries table l) := by
  obtain ⟨done, c, t, rest, rfl, ⟨rfl, -⟩ | ⟨rfl, -⟩⟩ := exists_branch_of_decideBranch hd
  · exact ((List.sublist_cons_self ..).append_left done).filterMap _
  · rw [temporaries_append, temporaries_append]
    exact (List.nil_sublist _).append_left _

theorem Block.Rewrite.tidy {f : Function} {block new : Block}
    (h : block.Rewrite table used f new) (huses : ∀ i ∈ block.instructions, ∀ v ∈ i.uses, v ∈ used)
    (ht : Tidy table block.instructions) : Tidy table new.instructions := by
  cases h with
  | fold => exact Block.tidy_fold ht
  | propagate => exact Block.tidy_propagate ht
  | prune => exact Block.tidy_prune huses ht
  | decide hd =>
    exact ⟨ht.once.sublist (temporaries_sublist_of_decideBranch hd), ht.ordered.decideBranch hd⟩
  | redirect => exact ht.map (fun i _ => i.definition_retarget _ _) (fun i _ => by simp)

namespace Function

theorem Tidied.rewrite {f : Function} {id : BlockId} (ht : f.Tidied table)
    (hc : f.Confined inside used) (hid : inside id) (h : f.Rewrite table used id f') :
    f'.Tidied table := by
  obtain ⟨block, new, hb, hrw, rfl⟩ := h
  intro j b hj
  exact forall_setBlock hb (Q := fun _ b => Tidy table b.instructions) ht
    (hrw.tidy (fun i hi v hv => hc.uses hid hb hi hv) (ht hb)) hj

theorem Rewrite.refines {f : Function} {id : BlockId} (ht : f.Tidied table)
    (hc : f.Confined inside used) (h : f.Rewrite table used id f') :
    f.Refines f' := by
  obtain ⟨block, new, hb, hrw, rfl⟩ := h
  cases hrw with
  | fold => exact refines_fold hb
  | propagate => exact refines_propagate hb (ht hb)
  | prune => exact refines_prune hb hc
  | decide hd => exact refines_decide hb hd
  | redirect hlead hlast hend => exact refines_redirect hb hlead hlast

end Function

end Cinder.Flow
