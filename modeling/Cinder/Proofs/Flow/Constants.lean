import Cinder.Flow.Pass.Folding
import Cinder.Flow.Pass.Propagation
import Cinder.Proofs.Flow.Rewriting
import Cinder.Proofs.Flow.Temporaries

/-!
# Folding and propagating constants

Folding replaces an operation by a store that has the same effect in every
environment.  Propagation replaces a temporary by a constant, which is right
because whoever reads the temporary comes behind the only store into it.
-/

namespace Cinder.Flow

variable {i : Instruction} {env : Env}

variable {table : SymbolTable}

/-! ## Folding -/

namespace Instruction

theorem effect_fold (env : Env) (i : Instruction) : i.fold.effect env = i.effect env := by
  unfold fold fold?
  split
  · rename_i result lhs op rhs operandTy resultTy
    cases h : lhs.binary op rhs <;> simp [effect, Operand.value, h]
  · rfl
  · rfl

theorem like_fold (env : Env) (i : Instruction) : i.Like env i.fold := by
  cases i with
  | goto target => rfl
  | branch condition target => exact Like.refl env _
  | call result callee arguments => exact Like.refl env _
  | ret value => exact Like.refl env _
  | label => exact effect_fold env _
  | alloca => exact effect_fold env _
  | store => exact effect_fold env _
  | load => exact effect_fold env _
  | binary => exact effect_fold env _
  | cast => exact effect_fold env _

theorem uses_fold_subset (i : Instruction) : i.fold.uses ⊆ i.uses := by
  unfold fold fold?
  split
  · rename_i result lhs op rhs operandTy resultTy
    cases lhs.binary op rhs with
    | none => exact fun _ h => h
    | some value => exact List.nil_subset _
  · exact List.nil_subset _
  · exact fun _ h => h

end Instruction

variable {block : Block} {v : Variable} {c : Constant} {known : List (Variable × Constant)}

theorem Function.refines_fold {f : Function} {id : BlockId} (hb : f.block? id = some block) :
    f.Refines (f.setBlock id block.fold) :=
  refines_map (fun _ _ => True) hb (fun _ => trivial)
    (fun _ _ => Instruction.like_fold _ _) (fun _ _ _ => trivial)

theorem Block.tidy_fold (h : Tidy table block.instructions) :
    Tidy table block.fold.instructions :=
  h.map (fun i _ => i.definition_fold) (fun i _ => i.uses_fold_subset)

/-! ## Propagation -/

namespace Instruction

theorem like_mapReplaceable {σ : Operand → Operand}
    (h : ∀ o ∈ i.replaceable, (σ o).value env = o.value env) :
    i.Like env (i.mapReplaceable σ) := by
  cases i with
  | goto target => rfl
  | label => rfl
  | alloca => rfl
  | load => rfl
  | branch condition target =>
    exact ⟨σ condition, rfl, h condition (by simp [replaceable, operands])⟩
  | call result callee arguments =>
    refine ⟨arguments.map σ, rfl, ?_⟩
    rw [List.map_map]
    exact List.map_congr_left fun o ho => h o ho
  | ret value =>
    cases value with
    | none => exact ⟨none, rfl, rfl⟩
    | some p =>
      refine ⟨some (σ p.1, p.2), rfl, ?_⟩
      simpa using h p.1 (by simp [replaceable, operands])
  | binary result lhs op rhs operandTy resultTy =>
    have hlhs := h lhs (by simp [replaceable, operands])
    have hrhs := h rhs (by simp [replaceable, operands])
    simp only [Like, mapReplaceable, effect, hlhs, hrhs]
  | cast result source sourceTy targetTy =>
    have hsource := h source (by simp [replaceable, operands])
    simp only [Like, mapReplaceable, effect, hsource]
  | store destination value ty =>
    have hvalue := h value (by simp [replaceable, operands])
    simp only [Like, mapReplaceable, effect, hvalue]

theorem replaceable_subset_operands (i : Instruction) : i.replaceable ⊆ i.operands := by
  cases i <;> simp [replaceable, operands]

theorem knowledge?_eq_some {v : Variable} {c : Constant} (h : i.knowledge? table = some (v, c)) :
    (∃ ty, i = .store v (.constant c) ty) ∧ table.isTemporary v.symbol = true := by
  unfold knowledge? at h
  split at h
  · split at h
    · cases h
      exact ⟨⟨_, rfl⟩, ‹_›⟩
    · cases h
  · cases h

end Instruction

/-- The variables that have been given a known constant hold it. -/
def Knows (table : SymbolTable) (done : List Instruction) (env : Env) : Prop :=
  ∀ v c, (v, c) ∈ done.filterMap (Instruction.knowledge? table) → env v = c

theorem mem_temporaries_of_knowledge {l : List Instruction}
    (h : (v, c) ∈ l.filterMap (Instruction.knowledge? table)) : v ∈ temporaries table l := by
  obtain ⟨i, hi, hknown⟩ := List.mem_filterMap.1 h
  obtain ⟨⟨ty, rfl⟩, htemp⟩ := Instruction.knowledge?_eq_some hknown
  exact mem_temporaries.2 ⟨htemp, _, hi, rfl⟩

theorem Knows.next {done rest : List Instruction} {env' : Env}
    (htidy : Tidy table (done ++ i :: rest)) (h : Knows table done env)
    (hafter : i.After env env') : Knows table (done ++ [i]) env' := by
  intro v c hmem
  rw [List.filterMap_append, List.mem_append] at hmem
  rcases hmem with hmem | hmem
  · -- an earlier store: the instruction writes another variable
    have hne := htidy.definition_ne (mem_temporaries_of_knowledge hmem)
    rw [hafter.frame hne]
    exact h v c hmem
  · simp only [List.mem_filterMap, List.mem_singleton, exists_eq_left] at hmem
    obtain ⟨⟨ty, rfl⟩, -⟩ := Instruction.knowledge?_eq_some hmem
    cases hafter
    exact env.set_self v c

/-- Where a temporary is read, the block has stored its constant already. -/
theorem mem_knowledge_of_use {done rest : List Instruction} (htidy : Tidy table (done ++ i :: rest))
    (hv : v ∈ i.uses) (h : (v, c) ∈ (done ++ i :: rest).filterMap (Instruction.knowledge? table)) :
    (v, c) ∈ done.filterMap (Instruction.knowledge? table) := by
  have htemp := (mem_temporaries.1 (mem_temporaries_of_knowledge h)).1
  have hdone := htidy.ordered.mem hv htemp
  rw [List.filterMap_append, List.mem_append] at h
  rcases h with h | h
  · exact h
  · have honce := htidy.once
    rw [temporaries_append] at honce
    exact absurd rfl ((List.nodup_append.1 honce).2.2 v hdone v (mem_temporaries_of_knowledge h))

theorem mem_of_lookup (h : known.lookup v = some c) : (v, c) ∈ known := by
  induction known with
  | nil => simp at h
  | cons p known ih =>
    rw [List.lookup_cons] at h
    by_cases hv : v = p.1
    · simp only [hv, beq_self_eq_true] at h
      simp [hv, ← Option.some.inj h]
    · simp only [beq_eq_false_iff_ne.2 hv] at h
      exact List.mem_cons_of_mem _ (ih h)

theorem value_propagate {o : Operand} (h : ∀ v c, o = .var v → (v, c) ∈ known → env v = c) :
    (o.propagate known).value env = o.value env := by
  cases o with
  | constant c => rfl
  | var v =>
    cases hlookup : known.lookup v with
    | none => simp [Operand.propagate, hlookup]
    | some c => simp [Operand.propagate, hlookup, Operand.value, h v c rfl (mem_of_lookup hlookup)]

theorem Function.refines_propagate {f : Function} {id : BlockId} (hb : f.block? id = some block)
    (htidy : Tidy table block.instructions) :
    f.Refines (f.setBlock id (block.propagate table)) := by
  refine refines_map (Knows table) hb ?_ ?_ ?_
  · intro env v c hmem
    simp at hmem
  · intro done i rest env hsplit hknows
    apply Instruction.like_mapReplaceable
    intro o ho
    apply value_propagate
    rintro v c rfl hmem
    have huse : v ∈ i.uses :=
      List.mem_filterMap.2 ⟨_, i.replaceable_subset_operands ho, rfl⟩
    rw [Block.known, List.mem_reverse, hsplit] at hmem
    rw [hsplit] at htidy
    exact hknows v c (mem_knowledge_of_use htidy huse hmem)
  · intro done i rest env env' hsplit hknows hafter
    rw [hsplit] at htidy
    exact hknows.next htidy hafter

theorem Operand.toVariable?_propagate {o : Operand} (h : (o.propagate known).toVariable? = some v) :
    o = .var v := by
  cases o with
  | constant c => cases h
  | var u =>
    cases hlookup : known.lookup u with
    | none => simpa [propagate, hlookup, toVariable?] using h
    | some c => simp [propagate, hlookup, toVariable?] at h

theorem Instruction.operands_mapReplaceable_subset {σ : Operand → Operand} (i : Instruction) :
    ∀ o ∈ (i.mapReplaceable σ).operands, o ∈ i.operands ∨ ∃ o' ∈ i.operands, o = σ o' := by
  intro o ho
  cases i with
  | ret value =>
    cases value with
    | none => simp [mapReplaceable, operands] at ho
    | some p => exact .inr (by simpa [mapReplaceable, operands] using ho)
  | label => cases ho
  | goto => cases ho
  | alloca => cases ho
  | load => exact .inl ho
  | call => exact .inr (by simpa [mapReplaceable, operands, eq_comm] using ho)
  | _ => exact .inr (by simpa [mapReplaceable, operands] using ho)

theorem Instruction.uses_propagate_subset (known : List (Variable × Constant)) (i : Instruction) :
    (i.mapReplaceable (Operand.propagate known)).uses ⊆ i.uses := by
  intro v hv
  obtain ⟨o, ho, hov⟩ := List.mem_filterMap.1 hv
  apply List.mem_filterMap.2
  rcases i.operands_mapReplaceable_subset o ho with ho | ⟨o', ho', rfl⟩
  · exact ⟨o, ho, hov⟩
  · exact ⟨o', ho', by rw [Operand.toVariable?_propagate hov]; rfl⟩

theorem Block.tidy_propagate (h : Tidy table block.instructions) :
    Tidy table (block.propagate table).instructions :=
  h.map (fun i _ => i.definition_mapReplaceable _) (fun i _ => i.uses_propagate_subset _)

end Cinder.Flow
