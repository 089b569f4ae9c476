import Cinder.Proofs.Flow.Optimizer

/-!
# Normal forms of blocks

All that folding, propagation, pruning and deciding can do to a block in the long
run, done in one go: the instructions are evaluated from front to back, and what
nobody needs is dropped from back to front.  None of these passes changes the normal
form of a block, so it does not matter in which order they come.
-/

namespace Cinder.Flow

variable {table : SymbolTable} {used : VariableSet}

/-! ## Evaluation from front to back -/

namespace Instruction

/-- The instruction with what is known filled in and computed. -/
def simplified (known : List (Variable × Constant)) (i : Instruction) : Instruction :=
  (i.mapReplaceable (Operand.propagate known)).fold

def learned (table : SymbolTable) (known : List (Variable × Constant)) (i : Instruction) :
    List (Variable × Constant) :=
  ((i.simplified known).knowledge? table).toList ++ known

/-- What is left of an instruction that is evaluated: nothing if all it does is to
give a temporary a constant. -/
def residue (table : SymbolTable) (known : List (Variable × Constant)) (i : Instruction) :
    List Instruction :=
  if ((i.simplified known).knowledge? table).isSome then [] else [i.simplified known]

end Instruction

/-- What is left of instructions that are evaluated one after the other. -/
def evaluate (table : SymbolTable) : List (Variable × Constant) → List Instruction →
    List Instruction
  | _, [] => []
  | known, i :: rest => i.residue table known ++ evaluate table (i.learned table known) rest

def learnAll (table : SymbolTable) (known : List (Variable × Constant)) (l : List Instruction) :
    List (Variable × Constant) :=
  l.foldl (Instruction.learned table) known

/-- Instructions without the ones that have no effect and compute nothing that an
instruction behind them needs. -/
def needed (table : SymbolTable) : List Instruction → List Instruction
  | [] => []
  | i :: rest =>
    if i.hasSideEffect table || i.definition.all fun v => (needed table rest).any (v ∈ ·.uses)
    then i :: needed table rest
    else needed table rest

namespace Block

def evaluated (table : SymbolTable) (block : Block) : Block :=
  { block with instructions := needed table (evaluate table [] block.instructions) }

def normal (table : SymbolTable) (block : Block) : Block :=
  (block.evaluated table).decide?.getD (block.evaluated table)

end Block

namespace Instruction

theorem mapReplaceable_mapReplaceable (σ τ : Operand → Operand) (i : Instruction) :
    (i.mapReplaceable σ).mapReplaceable τ = i.mapReplaceable fun o => τ (σ o) := by
  cases i with
  | ret value => cases value <;> rfl
  | call result callee arguments => simp [mapReplaceable]
  | _ => rfl

theorem mapReplaceable_congr {σ τ : Operand → Operand} {i : Instruction}
    (h : ∀ o ∈ i.replaceable, σ o = τ o) : i.mapReplaceable σ = i.mapReplaceable τ := by
  cases i with
  | ret value =>
    cases value with
    | none => rfl
    | some p => simpa [mapReplaceable] using h p.1 (by simp [replaceable, operands])
  | call result callee arguments =>
    have harguments : arguments.map σ = arguments.map τ := List.map_congr_left h
    simp only [mapReplaceable, harguments]
  | branch condition target =>
    have hcondition := h condition (by simp [replaceable, operands])
    simp only [mapReplaceable, hcondition]
  | binary result lhs op rhs operandTy resultTy =>
    have hlhs := h lhs (by simp [replaceable, operands])
    have hrhs := h rhs (by simp [replaceable, operands])
    simp only [mapReplaceable, hlhs, hrhs]
  | cast result source sourceTy targetTy =>
    have hsource := h source (by simp [replaceable, operands])
    simp only [mapReplaceable, hsource]
  | store destination value ty =>
    have hvalue := h value (by simp [replaceable, operands])
    simp only [mapReplaceable, hvalue]
  | _ => rfl

@[simp] theorem definition_simplified (known : List (Variable × Constant)) (i : Instruction) :
    (i.simplified known).definition = i.definition := by
  rw [simplified, definition_fold, definition_mapReplaceable]

theorem uses_simplified_subset (known : List (Variable × Constant)) (i : Instruction) :
    (i.simplified known).uses ⊆ i.uses :=
  fun _ hv => i.uses_propagate_subset known ((uses_fold_subset _) hv)

theorem knowledge?_simplified {known : List (Variable × Constant)} {i : Instruction}
    {fact : Variable × Constant} (h : i.knowledge? table = some fact) :
    (i.simplified known).knowledge? table = some fact := by
  obtain ⟨⟨ty, rfl⟩, -⟩ := knowledge?_eq_some h
  exact h

theorem simplified_fold (known : List (Variable × Constant)) (i : Instruction) :
    i.fold.simplified known = i.simplified known := by
  unfold fold fold?
  split
  · rename_i result lhs op rhs operandTy resultTy
    cases h : lhs.binary op rhs with
    | none => rfl
    | some value => simp [simplified, mapReplaceable, Operand.propagate, fold, fold?, h]
  · rfl
  · rfl

def Regular (table : SymbolTable) : Instruction → Prop
  | .binary result .. => table.isTemporary result.symbol = true
  | .cast result .. => table.isTemporary result.symbol = true
  | .load result source _ =>
    table.isTemporary result.symbol = true ∧ table.isTemporary source.symbol = false
  | _ => True

theorem Regular.fold {i : Instruction} (h : i.Regular table) : i.fold.Regular table := by
  unfold Instruction.fold fold?
  split
  · rename_i result lhs op rhs operandTy resultTy
    cases lhs.binary op rhs with
    | none => exact h
    | some value => trivial
  · trivial
  · exact h

theorem Regular.mapReplaceable {i : Instruction} (h : i.Regular table) (σ : Operand → Operand) :
    (i.mapReplaceable σ).Regular table := by
  cases i <;> exact h

theorem hasSideEffect_fold {i : Instruction} (h : i.Regular table) :
    i.fold.hasSideEffect table = i.hasSideEffect table := by
  unfold fold fold?
  split
  · rename_i result lhs op rhs operandTy resultTy
    cases lhs.binary op rhs with
    | none => rfl
    | some value =>
      change (!table.isTemporary result.symbol) = false
      rw [show table.isTemporary result.symbol = true from h]
      rfl
  · rename_i result source sourceTy targetTy
    change (!table.isTemporary result.symbol) = false
    rw [show table.isTemporary result.symbol = true from h]
    rfl
  · rfl

theorem hasSideEffect_mapReplaceable (σ : Operand → Operand) (i : Instruction) :
    (i.mapReplaceable σ).hasSideEffect table = i.hasSideEffect table := by
  cases i <;> rfl

theorem keeps_simplified (used : VariableSet) {i : Instruction} (h : i.Regular table)
    (known : List (Variable × Constant)) :
    Block.keeps table used (i.simplified known) = Block.keeps table used i := by
  rw [Block.keeps, Block.keeps, definition_simplified, simplified,
    hasSideEffect_fold (h.mapReplaceable _), hasSideEffect_mapReplaceable]

end Instruction

theorem evaluate_append (known : List (Variable × Constant)) (l l' : List Instruction) :
    evaluate table known (l ++ l') =
      evaluate table known l ++ evaluate table (learnAll table known l) l' := by
  induction l generalizing known with
  | nil => rfl
  | cons i rest ih =>
    rw [List.cons_append, evaluate, ih, evaluate, List.append_assoc]
    rfl

variable {known : List (Variable × Constant)} {i : Instruction} {l done rest : List Instruction}
  {block : Block}

theorem evaluate_singleton (h : (i.simplified known).knowledge? table = none) :
    evaluate table known [i] = [i.simplified known] := by
  simp [evaluate, Instruction.residue, h]

theorem mem_evaluate (h : i ∈ evaluate table known l) :
    ∃ j ∈ l, ∃ known', i = j.simplified known' := by
  induction l generalizing known with
  | nil => cases h
  | cons j rest ih =>
    rcases List.mem_append.1 h with h | h
    · unfold Instruction.residue at h
      split at h
      · cases h
      · exact ⟨j, by simp, known, List.mem_singleton.1 h⟩
    · obtain ⟨k, hk, known', rfl⟩ := ih h
      exact ⟨k, by simp [hk], known', rfl⟩

/-! ## Evaluation after a pass -/

theorem evaluate_fold (known : List (Variable × Constant)) (l : List Instruction) :
    evaluate table known (l.map Instruction.fold) = evaluate table known l := by
  induction l generalizing known with
  | nil => rfl
  | cons i rest ih =>
    simp only [List.map_cons, evaluate, Instruction.residue, Instruction.learned,
      Instruction.simplified_fold, ih]

theorem lookup_cons_of_ne {κ : List (Variable × Constant)} {v : Variable} {c : Constant}
    {u : Variable} (h : u ≠ v) : ((v, c) :: κ).lookup u = κ.lookup u := by
  rw [List.lookup_cons, beq_eq_false_iff_ne.2 h]

/-- All constants that have been stored into temporaries are known. -/
def Informed (table : SymbolTable) (done : List Instruction)
    (known : List (Variable × Constant)) : Prop :=
  ∀ v c, (v, c) ∈ done.filterMap (Instruction.knowledge? table) → known.lookup v = some c

theorem Informed.next (h : Informed table done known) (htidy : Tidy table (done ++ i :: rest)) :
    Informed table (done ++ [i]) (i.learned table known) := by
  intro v c hmem
  rw [List.filterMap_append, List.mem_append] at hmem
  unfold Instruction.learned
  rcases hmem with hmem | hmem
  · cases hk : (i.simplified known).knowledge? table with
    | none => exact h v c hmem
    | some fact =>
      -- an earlier store: the instruction gives another temporary its constant
      obtain ⟨u, d⟩ := fact
      obtain ⟨⟨ty, hi⟩, -⟩ := Instruction.knowledge?_eq_some hk
      have hdef : i.definition = some u := by
        rw [← Instruction.definition_simplified known, hi]
        rfl
      have hne : v ≠ u := by
        rintro rfl
        exact htidy.definition_ne (mem_temporaries_of_knowledge hmem) hdef
      rw [Option.toList_some, List.singleton_append, lookup_cons_of_ne hne]
      exact h v c hmem
  · simp only [List.mem_filterMap, List.mem_singleton, exists_eq_left] at hmem
    rw [Instruction.knowledge?_simplified hmem]
    simp

/-- Propagation fills in nothing that evaluation would not fill in. -/
theorem evaluate_propagate {all : List Instruction} (hall : all = done ++ rest)
    (htidy : Tidy table all) (h : Informed table done known) :
    evaluate table known (rest.map (Instruction.mapReplaceable
        (Operand.propagate (all.filterMap (Instruction.knowledge? table)).reverse))) =
      evaluate table known rest := by
  induction rest generalizing done known with
  | nil => rfl
  | cons i rest ih =>
    have hsimplified : (i.mapReplaceable (Operand.propagate
        (all.filterMap (Instruction.knowledge? table)).reverse)).simplified known =
          i.simplified known := by
      rw [Instruction.simplified, Instruction.mapReplaceable_mapReplaceable, Instruction.simplified]
      congr 1
      refine Instruction.mapReplaceable_congr fun o ho => ?_
      cases o with
      | constant c => rfl
      | var v =>
        cases hlookup : (all.filterMap (Instruction.knowledge? table)).reverse.lookup v with
        | none => simp [Operand.propagate, hlookup]
        | some c =>
          have hmem := List.mem_reverse.1 (mem_of_lookup hlookup)
          have huse : v ∈ i.uses :=
            List.mem_filterMap.2 ⟨_, i.replaceable_subset_operands ho, rfl⟩
          rw [hall] at hmem htidy
          have hstored := h v c (mem_knowledge_of_use htidy huse hmem)
          simp [Operand.propagate, hlookup, hstored]
    have hrest := ih (by rw [hall, List.append_assoc]; rfl) (h.next (hall ▸ htidy))
    simp only [List.map_cons, evaluate, Instruction.residue, Instruction.learned, hsimplified]
    rw [Instruction.learned] at hrest
    rw [hrest]

theorem learned_of_agree {known' : List (Variable × Constant)}
    (hagree : ∀ v ∈ used, known'.lookup v = known.lookup v) (huses : ∀ v ∈ i.uses, v ∈ used) :
    i.simplified known' = i.simplified known := by
  rw [Instruction.simplified, Instruction.simplified]
  congr 1
  refine Instruction.mapReplaceable_congr fun o ho => ?_
  cases o with
  | constant c => rfl
  | var v =>
    have huse : v ∈ i.uses := List.mem_filterMap.2 ⟨_, i.replaceable_subset_operands ho, rfl⟩
    simp only [Operand.propagate, hagree v (huses v huse)]

theorem evaluate_filter {known' : List (Variable × Constant)} (hregular : ∀ i ∈ l, i.Regular table)
    (huses : ∀ i ∈ l, ∀ v ∈ i.uses, v ∈ used)
    (hagree : ∀ v ∈ used, known'.lookup v = known.lookup v) :
    evaluate table known' (l.filter (Block.keeps table used)) =
      (evaluate table known l).filter (Block.keeps table used) := by
  induction l generalizing known known' with
  | nil => rfl
  | cons i rest ih =>
    have ih := fun {κ κ' : List (Variable × Constant)} => @ih κ κ'
      (fun j hj => hregular j (by simp [hj])) (fun j hj => huses j (by simp [hj]))
    have hkeeps := Instruction.keeps_simplified used (hregular i (by simp)) known
    have hdef := Instruction.definition_simplified known i
    cases hk : Block.keeps table used i with
    | true =>
      have hsame := learned_of_agree hagree (huses i (by simp))
      rw [List.filter_cons_of_pos hk, evaluate, evaluate, List.filter_append,
        Instruction.residue, Instruction.residue, Instruction.learned, Instruction.learned, hsame]
      cases hknown : (i.simplified known).knowledge? table with
      | none => simp [hkeeps, hk, ih hagree]
      | some fact =>
        obtain ⟨u, c⟩ := fact
        refine congrArg _ (ih fun v hv => ?_)
        rw [Option.toList_some, List.singleton_append, List.singleton_append,
          List.lookup_cons, List.lookup_cons, hagree v hv]
    | false =>
      rw [List.filter_cons_of_neg (by simp [hk]), evaluate, List.filter_append,
        Instruction.residue, Instruction.learned]
      cases hknown : (i.simplified known).knowledge? table with
      | none =>
        simp [hkeeps, hk, ih hagree]
      | some fact =>
        -- what is learned from a dropped instruction is about a variable not in use
        obtain ⟨v, hv, hnot⟩ := Block.exists_definition_of_drops hk
        obtain ⟨⟨ty, hi⟩, -⟩ := Instruction.knowledge?_eq_some hknown
        rw [hi] at hdef
        have hfact : fact.1 = v := Option.some.inj (hdef.trans hv)
        simp only [Option.isSome_some, if_true, List.filter_nil, List.nil_append]
        refine ih fun u hu => ?_
        rw [Option.toList_some, List.singleton_append, hagree u hu,
          lookup_cons_of_ne (c := fact.2)]
        rintro rfl
        exact hnot (hfact ▸ hu)

/-! ## What is needed -/

theorem needed_sublist (l : List Instruction) : (needed table l).Sublist l := by
  induction l with
  | nil => exact .slnil
  | cons i rest ih =>
    rw [needed]
    split
    · exact ih.cons_cons i
    · exact ih.cons i

theorem needed_cons_of_effect (h : i.hasSideEffect table = true) (l : List Instruction) :
    needed table (i :: l) = i :: needed table l := by
  rw [needed, h, Bool.true_or, if_pos rfl]

theorem needed_filter (huses : ∀ i ∈ l, ∀ v ∈ i.uses, v ∈ used) :
    needed table (l.filter (Block.keeps table used)) = needed table l := by
  induction l with
  | nil => rfl
  | cons i rest ih =>
    have ih := ih fun j hj => huses j (by simp [hj])
    cases hk : Block.keeps table used i with
    | true => rw [List.filter_cons_of_pos hk, needed, needed, ih]
    | false =>
      obtain ⟨v, hv, hnot⟩ := Block.exists_definition_of_drops hk
      have hunread : (needed table rest).any (v ∈ ·.uses) = false := by
        rw [List.any_eq_false]
        intro j hj hmem
        exact hnot (huses j (by simp [(needed_sublist rest).subset hj]) v (by simpa using hmem))
      have heffect : i.hasSideEffect table = false := by
        rw [Block.keeps, Bool.or_eq_false_iff] at hk
        exact hk.1
      rw [List.filter_cons_of_neg (by simp [hk]), ih, needed, heffect, hv, Option.all_some,
        hunread]
      rfl

/-- An instruction at the end that has an effect but reads nothing. -/
theorem needed_concat (heffect : i.hasSideEffect table = true) (huses : i.uses = [])
    (l : List Instruction) :
    needed table (l ++ [i]) = needed table l ++ [i] := by
  induction l with
  | nil => exact needed_cons_of_effect heffect []
  | cons j rest ih =>
    rw [List.cons_append, needed, needed, ih]
    simp only [List.any_append, List.any_cons, huses, List.not_mem_nil, decide_false,
      List.any_nil, Bool.or_false]
    split <;> rfl

theorem exists_needed_concat (heffect : i.hasSideEffect table = true) (l : List Instruction) :
    ∃ l', l'.Sublist l ∧ needed table (l ++ [i]) = l' ++ [i] := by
  induction l with
  | nil => exact ⟨[], .slnil, needed_cons_of_effect heffect []⟩
  | cons j rest ih =>
    obtain ⟨l', hsub, heq⟩ := ih
    rw [List.cons_append, needed, heq]
    split
    · exact ⟨j :: l', hsub.cons_cons j, rfl⟩
    · exact ⟨l', hsub.cons j, rfl⟩

/-! ## Normal forms after a pass -/

theorem isPlain_of_mem_evaluate (h : ∀ i ∈ l, i.isPlain = true) :
    ∀ i ∈ evaluate table known l, i.isPlain = true := by
  intro i hi
  obtain ⟨j, hj, known', rfl⟩ := mem_evaluate hi
  exact Instruction.isPlain_fold (Instruction.isPlain_mapReplaceable _ (h j hj))

/-- Evaluating a block keeps its label and what its last instruction is. -/
theorem evaluated_concat (table : SymbolTable) (id : BlockId) {body : List Instruction}
    (last : Instruction) (hbody : ∀ i ∈ body, i.isPlain = true) (heffect : ∀ known,
      (last.simplified known).hasSideEffect table = true ∧
        (last.simplified known).knowledge? table = none) :
    ∃ body' : List Instruction, ∃ known, (∀ i ∈ body', i.isPlain = true) ∧
      needed table (evaluate table [] (.label id :: (body ++ [last]))) =
        .label id :: (body' ++ [last.simplified known]) := by
  obtain ⟨body', hsub, hneeded⟩ := exists_needed_concat
    (heffect (learnAll table [] body)).1 (evaluate table [] body)
  refine ⟨body', learnAll table [] body, ?_, ?_⟩
  · exact fun i hi => isPlain_of_mem_evaluate hbody i (hsub.subset hi)
  · change needed table (.label id :: evaluate table [] (body ++ [last])) = _
    rw [evaluate_append, evaluate_singleton (heffect _).2, needed_cons_of_effect rfl, hneeded]

theorem evaluated_concat_of_closed {id : BlockId} {body : List Instruction} {last : Instruction}
    (hclosed : ∀ known, last.simplified known = last) (heffect : last.hasSideEffect table = true)
    (hknown : last.knowledge? table = none) (huses : last.uses = []) :
    needed table (evaluate table [] (.label id :: (body ++ [last]))) =
      .label id :: (needed table (evaluate table [] body) ++ [last]) := by
  change needed table (.label id :: evaluate table [] (body ++ [last])) = _
  rw [evaluate_append, evaluate_singleton (by rw [hclosed, hknown]), hclosed,
    needed_cons_of_effect rfl, needed_concat heffect huses]

theorem Block.decide?_eq_some {new : Block} : block.decide? = some new ↔
    ∃ l target, decideBranch block.instructions = some (l, target) ∧
      new = ⟨l, target.or block.next, none⟩ := by
  constructor
  · intro h
    obtain ⟨⟨l, target⟩, hd, rfl⟩ := Option.map_eq_some_iff.1 h
    exact ⟨l, target, hd, rfl⟩
  · rintro ⟨l, target, hd, rfl⟩
    rw [decide?, hd]
    rfl

theorem Block.decide?_eq_none :
    block.decide? = none ↔ decideBranch block.instructions = none := by
  rw [decide?, Option.map_eq_none_iff]

namespace Block.Agrees

variable {exit id : BlockId} {block : Block}

theorem evaluated (h : block.Agrees exit id) : (block.evaluated table).Agrees exit id := by
  unfold Block.evaluated
  cases h with
  | @fall body next hexit hbody =>
    change Block.Agrees exit id ⟨needed table (.label id :: evaluate table [] body), _, _⟩
    rw [needed_cons_of_effect rfl]
    exact .fall hexit fun i hi => isPlain_of_mem_evaluate hbody i ((needed_sublist _).subset hi)
  | @goto body target hexit hbody =>
    obtain ⟨body', known, hbody', heq⟩ :=
      evaluated_concat table id (.goto target) hbody fun _ => ⟨rfl, rfl⟩
    rw [heq]
    exact .goto hexit hbody'
  | @branch body condition target next hexit hbody =>
    obtain ⟨body', known, hbody', heq⟩ :=
      evaluated_concat table id (.branch condition target) hbody fun _ => ⟨rfl, rfl⟩
    rw [heq]
    exact .branch hexit hbody'
  | @ret body value hexit hbody =>
    obtain ⟨body', known, hbody', heq⟩ :=
      evaluated_concat table id (.ret value) hbody fun _ => ⟨rfl, rfl⟩
    rw [heq]
    exact .ret hexit hbody'

theorem normal (h : block.Agrees exit id) : (block.normal table).Agrees exit id := by
  unfold Block.normal
  cases hd : (block.evaluated table).decide? with
  | none => exact h.evaluated
  | some new =>
    obtain ⟨l, target, hl, rfl⟩ := Block.decide?_eq_some.1 hd
    exact h.evaluated.decide hl

theorem successors_normal (h : block.Agrees exit id) :
    (block.normal table).successors ⊆ block.successors := by
  unfold Block.normal
  cases hd : (block.evaluated table).decide? with
  | none => exact fun _ hn => hn
  | some new =>
    obtain ⟨l, target, hl, rfl⟩ := Block.decide?_eq_some.1 hd
    intro n hn
    have hnext : target.or block.next = some n := by
      simpa [Block.successors, Block.evaluated] using hn
    rcases Option.or_eq_some_iff.1 hnext with ht | ⟨-, hn⟩
    · subst ht
      obtain ⟨condition, hmem⟩ := branch_mem_of_decideBranch hl
      exact h.evaluated.mem_successors ⟨_, hmem, by simp [Instruction.jumpsTo]⟩
    · simp [Block.successors, hn]

end Block.Agrees

namespace Block

variable {exit id : BlockId} {block : Block}

theorem normal_fold (block : Block) : block.fold.normal table = block.normal table := by
  have h : block.fold.evaluated table = block.evaluated table := by
    simp only [evaluated, fold, evaluate_fold]
  rw [normal, normal, h]

theorem normal_propagate (htidy : Tidy table block.instructions) :
    (block.propagate table).normal table = block.normal table := by
  have h : (block.propagate table).evaluated table = block.evaluated table := by
    have hnone : Informed table [] [] := nofun
    simp only [evaluated, propagate, known, evaluate_propagate (List.nil_append _).symm htidy hnone]
  rw [normal, normal, h]

theorem normal_prune (ha : block.Agrees exit id)
    (hregular : ∀ i ∈ block.instructions, i.Regular table)
    (huses : ∀ i ∈ block.instructions, ∀ v ∈ i.uses, v ∈ used) :
    (block.prune table used).normal table = block.normal table := by
  have huses' : ∀ i ∈ evaluate table [] block.instructions, ∀ v ∈ i.uses, v ∈ used := by
    intro i hi v hv
    obtain ⟨j, hj, known, rfl⟩ := mem_evaluate hi
    exact huses j hj v (j.uses_simplified_subset known hv)
  have h : (block.prune table used).evaluated table = block.evaluated table := by
    rw [ha.prune_eq, evaluated, evaluated, evaluate_filter hregular huses fun _ _ => rfl,
      needed_filter huses']
  rw [normal, normal, h]

theorem normal_decide (ha : block.Agrees exit id) {l : List Instruction} {target : Option BlockId}
    (hd : decideBranch block.instructions = some (l, target)) :
    Block.normal table ⟨l, target.or block.next, none⟩ = block.normal table := by
  obtain ⟨body, c, t, next, -, hbody, rfl, hcase⟩ := ha.exists_of_decideBranch hd
  have hbody' : ∀ i ∈ needed table (evaluate table [] body), i.isPlain = true :=
    fun i hi => isPlain_of_mem_evaluate hbody i ((needed_sublist _).subset hi)
  have hbranch : Block.evaluated table
      ⟨.label id :: (body ++ [Instruction.branch (.constant c) t]), some next, some t⟩ =
      ⟨.label id :: (needed table (evaluate table [] body) ++
        [Instruction.branch (.constant c) t]), some next, some t⟩ := by
    rw [evaluated, evaluated_concat_of_closed (fun _ => rfl) rfl rfl rfl]
  rcases hcase with ⟨hc, rfl, rfl⟩ | ⟨hc, rfl, rfl⟩
  · have hfall : Block.evaluated table ⟨.label id :: body, some next, none⟩ =
        ⟨.label id :: needed table (evaluate table [] body), some next, none⟩ := by
      change Block.mk (needed table (.label id :: evaluate table [] body)) _ _ = _
      rw [needed_cons_of_effect rfl]
    have hnone := @Agrees.decideBranch_body id _ [] hbody'
    rw [List.append_nil] at hnone
    simp only [normal, Option.none_or, hbranch, hfall, decide?, hnone,
      Agrees.decideBranch_body hbody', decideBranch, hc, if_true]
    simp
  · have hgoto : Block.evaluated table
        ⟨.label id :: (body ++ [Instruction.goto t]), some t, none⟩ =
        ⟨.label id :: (needed table (evaluate table [] body) ++ [Instruction.goto t]),
          some t, none⟩ := by
      rw [evaluated, evaluated_concat_of_closed (fun _ => rfl) rfl rfl rfl]
    simp only [normal, Option.some_or, hbranch, hgoto, decide?,
      Agrees.decideBranch_body hbody', decideBranch, hc, Bool.false_eq_true, if_false]
    rfl

end Block

/-! ## Normal forms of redirected blocks -/

section

variable (source target : BlockId)

namespace Instruction

theorem simplified_retarget (known : List (Variable × Constant)) (i : Instruction) :
    (i.retarget source target).simplified known = (i.simplified known).retarget source target := by
  cases hp : i.isPlain with
  | true =>
    have hp' : (i.simplified known).isPlain = true := isPlain_fold (isPlain_mapReplaceable _ hp)
    rw [retarget_of_isPlain _ _ hp, retarget_of_isPlain _ _ hp']
  | false =>
    cases i with
    | label => rfl
    | goto => rfl
    | branch => rfl
    | ret => rfl
    | _ => cases hp

theorem knowledge?_retarget (i : Instruction) :
    (i.retarget source target).knowledge? table = i.knowledge? table := by
  cases i <;> rfl

theorem hasSideEffect_retarget (i : Instruction) :
    (i.retarget source target).hasSideEffect table = i.hasSideEffect table := by
  cases i <;> rfl

end Instruction

theorem evaluate_retarget (known : List (Variable × Constant)) (l : List Instruction) :
    evaluate table known (l.map (Instruction.retarget source target)) =
      (evaluate table known l).map (Instruction.retarget source target) := by
  induction l generalizing known with
  | nil => rfl
  | cons i rest ih =>
    simp only [List.map_cons, evaluate, List.map_append, Instruction.residue, Instruction.learned,
      Instruction.simplified_retarget, Instruction.knowledge?_retarget, ih]
    split <;> rfl

theorem needed_retarget (l : List Instruction) :
    needed table (l.map (Instruction.retarget source target)) =
      (needed table l).map (Instruction.retarget source target) := by
  induction l with
  | nil => rfl
  | cons i rest ih =>
    simp only [List.map_cons, needed, ih, Instruction.hasSideEffect_retarget,
      Instruction.definition_retarget, List.any_map, Function.comp_def, Instruction.uses_retarget]
    split <;> rfl

theorem decideBranch_retarget (l : List Instruction) :
    decideBranch (l.map (Instruction.retarget source target)) =
      (decideBranch l).map fun (l', t) => (l'.map (Instruction.retarget source target),
        t.map fun n => if n = source then target else n) := by
  fun_induction decideBranch l with
  | case1 => rfl
  | case2 c t rest hc => simp [Instruction.retarget, decideBranch, hc]
  | case3 c t rest hc => simp [Instruction.retarget, decideBranch, hc]
  | case4 i rest hi ih =>
    have hcons : decideBranch ((i :: rest).map (Instruction.retarget source target)) =
        (decideBranch (rest.map (Instruction.retarget source target))).map
          fun (l, t) => (i.retarget source target :: l, t) := by
      cases i with
      | branch condition t =>
        cases condition with
        | constant c => exact absurd rfl (hi c t)
        | var v => rfl
      | _ => rfl
    rw [hcons, ih, Option.map_map, Option.map_map]
    rfl

theorem Block.decide?_redirect (block : Block) :
    (block.redirect source target).decide? = block.decide?.map (Block.redirect source target) := by
  have hinstructions : (block.redirect source target).instructions =
      block.instructions.map (Instruction.retarget source target) := rfl
  rw [decide?, decide?, hinstructions, decideBranch_retarget, Option.map_map, Option.map_map]
  apply Option.map_congr
  rintro ⟨l, t⟩ -
  cases t with
  | none => rfl
  | some n => by_cases hn : n = source <;> simp [Block.redirect, hn]

theorem Block.normal_redirect (block : Block) :
    (block.redirect source target).normal table =
      (block.normal table).redirect source target := by
  have h : (block.redirect source target).evaluated table =
      (block.evaluated table).redirect source target := by
    simp only [evaluated, Block.redirect, evaluate_retarget, needed_retarget]
    rfl
  rw [normal, normal, h, decide?_redirect]
  cases (block.evaluated table).decide? <;> rfl

end

/-! ## Blocks that no pass changes -/

theorem evaluate_of_known (hfold : ∀ i ∈ l, i.fold = i)
    (hknown : ∀ i ∈ l, i.knowledge? table = none) : evaluate table [] l = l := by
  induction l with
  | nil => rfl
  | cons i rest ih =>
    have hsimplified : i.simplified [] = i := by
      have hid : i.mapReplaceable (Operand.propagate []) = i.mapReplaceable id :=
        Instruction.mapReplaceable_congr fun o _ => by cases o <;> rfl
      rw [Instruction.simplified, hid, Instruction.mapReplaceable_id]
      exact hfold i (by simp)
    rw [evaluate, Instruction.residue, Instruction.learned, hsimplified, hknown i (by simp)]
    have hrest := ih (fun j hj => hfold j (by simp [hj])) (fun j hj => hknown j (by simp [hj]))
    simp [hrest]

theorem Instruction.Regular.exists_temporary (h : i.Regular table)
    (heffect : i.hasSideEffect table = false) :
    ∃ v, i.definition = some v ∧ table.isTemporary v.symbol = true := by
  cases i with
  | binary result => exact ⟨result, rfl, h⟩
  | cast result => exact ⟨result, rfl, h⟩
  | load result => exact ⟨result, rfl, h.1⟩
  | store destination => exact ⟨destination, rfl, by simpa [hasSideEffect] using heffect⟩
  | _ => cases heffect

theorem needed_of_read (htidy : Tidy table (done ++ rest)) (hregular : ∀ i ∈ rest, i.Regular table)
    (hread : ∀ i ∈ rest, i.hasSideEffect table = false → ∀ v, i.definition = some v →
      ∃ j ∈ done ++ rest, v ∈ j.uses) : needed table rest = rest := by
  induction rest generalizing done with
  | nil => rfl
  | cons i rest ih =>
    have hsplit : done ++ i :: rest = (done ++ [i]) ++ rest := by simp
    have hrest := ih (hsplit ▸ htidy) (fun j hj => hregular j (by simp [hj]))
      (fun j hj => hsplit ▸ hread j (by simp [hj]))
    rw [needed, hrest]
    refine if_pos ?_
    cases heffect : i.hasSideEffect table with
    | true => rfl
    | false =>
      obtain ⟨v, hdef, htemp⟩ := (hregular i (by simp)).exists_temporary heffect
      obtain ⟨j, hj, hv⟩ := hread i (by simp) heffect v hdef
      rw [Bool.false_or, hdef, Option.all_some, List.any_eq_true]
      rcases List.mem_append.1 hj with hj | hj
      · -- a temporary is not read in front of the instruction that writes it
        obtain ⟨before, after, rfl⟩ := List.append_of_mem hj
        have hbefore : v ∈ temporaries table before := by
          rw [List.append_assoc] at htidy
          exact htidy.ordered.mem hv htemp
        refine absurd hdef (htidy.definition_ne ?_)
        rw [temporaries_append]
        exact List.mem_append_left _ hbefore
      · rcases List.mem_cons.1 hj with rfl | hj
        · exact absurd hdef (htidy.definition_ne (htidy.ordered.mem hv htemp))
        · exact ⟨j, hj, by simpa using hv⟩

theorem Instruction.mem_replaceable_of_use (h : i.Regular table) {v : Variable} (hv : v ∈ i.uses)
    (htemp : table.isTemporary v.symbol = true) : .var v ∈ i.replaceable := by
  rw [mem_uses] at hv
  cases i with
  | load result source ty =>
    cases List.mem_singleton.1 hv
    exact absurd htemp (by simp [h.2])
  | _ => exact hv

/-- In a block that neither propagation nor pruning changes no temporary is given a
constant: somebody would read it, and would have been told. -/
theorem knowledge?_eq_none_of_quiet (hregular : ∀ i ∈ l, i.Regular table)
    (hpropagate : l.map (Instruction.mapReplaceable (Operand.propagate
      (l.filterMap (Instruction.knowledge? table)).reverse)) = l)
    (hread : ∀ i ∈ l, i.hasSideEffect table = false → ∀ v, i.definition = some v →
      ∃ j ∈ l, v ∈ j.uses) : ∀ i ∈ l, i.knowledge? table = none := by
  intro i hi
  by_contra hne
  obtain ⟨⟨v, c⟩, hknown⟩ := Option.ne_none_iff_exists'.1 hne
  obtain ⟨⟨ty, rfl⟩, htemp⟩ := Instruction.knowledge?_eq_some hknown
  obtain ⟨j, hj, hv⟩ := hread _ hi (by simp [Instruction.hasSideEffect, htemp]) v rfl
  generalize hall : (l.filterMap (Instruction.knowledge? table)).reverse = all at hpropagate
  have hsame : j.mapReplaceable (Operand.propagate all) = j :=
    List.map_inj_left.1 (hpropagate.trans (List.map_id' l).symm) j hj
  have hvar : Operand.propagate all (.var v) = .var v := by
    have hmap := j.replaceable_mapReplaceable (Operand.propagate all)
    rw [hsame] at hmap
    exact (List.map_inj_left.1 ((List.map_id' _).trans hmap) _
      (Instruction.mem_replaceable_of_use (hregular j hj) hv htemp)).symm
  have hmem : (v, c) ∈ all := by
    rw [← hall, List.mem_reverse]
    exact List.mem_filterMap.2 ⟨_, hi, hknown⟩
  cases hlookup : all.lookup v with
  | none =>
    have hne := List.lookup_eq_none_iff.1 hlookup (v, c) hmem
    simp at hne
  | some d => simp [Operand.propagate, hlookup] at hvar

theorem Block.normal_of_quiet (htidy : Tidy table block.instructions)
    (hregular : ∀ i ∈ block.instructions, i.Regular table) (hfold : block.fold = block)
    (hpropagate : block.propagate table = block)
    (hread : ∀ i ∈ block.instructions, i.hasSideEffect table = false → ∀ v,
      i.definition = some v → ∃ j ∈ block.instructions, v ∈ j.uses)
    (hdecide : decideBranch block.instructions = none) : block.normal table = block := by
  have hfolded : block.instructions.map Instruction.fold = block.instructions :=
    congrArg Block.instructions hfold
  have hknown := knowledge?_eq_none_of_quiet hregular (congrArg Block.instructions hpropagate) hread
  have hevaluated : block.evaluated table = block := by
    rw [evaluated, evaluate_of_known
        (fun i hi => List.map_inj_left.1 (hfolded.trans (List.map_id' _).symm) i hi) hknown,
      @needed_of_read table [] _ htidy hregular hread]
  rw [normal, hevaluated, decide?_eq_none.2 hdecide]
  rfl

end Cinder.Flow
