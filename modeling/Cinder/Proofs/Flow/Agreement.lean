import Cinder.Proofs.Flow.Rewrites

/-!
# Blocks whose links agree with their instructions

Where a block goes is said twice, by its instructions and by its links.  In a
function that was lowered the two agree in every block, whether control gets there
or not, and every rewrite keeps it that way.
-/

namespace Cinder.Flow

variable {i : Instruction} {l : List Instruction}

variable {table : SymbolTable} {used : VariableSet}

/-- Whether control always goes on to the instruction behind. -/
def Instruction.isPlain : Instruction → Bool
  | .label _ => false
  | .goto _ => false
  | .branch _ _ => false
  | .ret _ => false
  | _ => true

/-- A block that starts with its label, jumps at its end if anywhere, and has the
links that its end asks for.  The exit, and no other block, ends with a return. -/
inductive Block.Agrees (exit id : BlockId) : Block → Prop where
  | fall {body next} (hexit : id ≠ exit) (hbody : ∀ i ∈ body, Instruction.isPlain i = true) :
    Agrees exit id ⟨.label id :: body, some next, none⟩
  | goto {body target} (hexit : id ≠ exit) (hbody : ∀ i ∈ body, Instruction.isPlain i = true) :
    Agrees exit id ⟨.label id :: (body ++ [Instruction.goto target]), some target, none⟩
  | branch {body condition target next} (hexit : id ≠ exit)
    (hbody : ∀ i ∈ body, Instruction.isPlain i = true) :
    Agrees exit id
      ⟨.label id :: (body ++ [Instruction.branch condition target]), some next, some target⟩
  | ret {body value} (hexit : id = exit) (hbody : ∀ i ∈ body, Instruction.isPlain i = true) :
    Agrees exit id ⟨.label id :: (body ++ [Instruction.ret value]), none, none⟩

/-! ## Rewrites keep the agreement -/

namespace Instruction

theorem isPlain_fold (h : i.isPlain = true) : i.fold.isPlain = true := by
  unfold fold fold?
  split
  · rename_i lhs op rhs _ _
    cases lhs.binary op rhs <;> rfl
  · rfl
  · exact h

theorem isPlain_mapReplaceable (g : Operand → Operand) (h : i.isPlain = true) :
    (i.mapReplaceable g).isPlain = true := by
  cases i with
  | label => cases h
  | goto => cases h
  | branch => cases h
  | ret => cases h
  | _ => rfl

theorem retarget_of_isPlain (source target : BlockId) (h : i.isPlain = true) :
    i.retarget source target = i := by
  cases i with
  | goto => cases h
  | branch => cases h
  | _ => rfl

theorem isTerminator_of_isPlain (h : i.isPlain = true) :
    i.isTerminator = false := by
  cases i with
  | goto => cases h
  | ret => cases h
  | _ => rfl

theorem isBranch_of_isPlain (h : i.isPlain = true) : i.isBranch = false := by
  cases i with
  | branch => cases h
  | _ => rfl

theorem jumpsTo_of_isPlain (h : i.isPlain = true) (t : BlockId) :
    i.jumpsTo t = false := by
  cases i with
  | goto => cases h
  | branch => cases h
  | _ => rfl

end Instruction

namespace Block.Agrees

variable {exit id : BlockId} {block : Block}

/-- Replacing instructions by ones of the same kind that go to the same blocks. -/
theorem map {g : Instruction → Instruction} (h : block.Agrees exit id)
    (hlabel : g (.label id) = .label id)
    (hplain : ∀ {i : Instruction}, i.isPlain = true → (g i).isPlain = true)
    (hgoto : ∀ t, g (.goto t) = .goto t)
    (hbranch : ∀ condition t, ∃ condition', g (.branch condition t) = .branch condition' t)
    (hret : ∀ value, ∃ value', g (.ret value) = .ret value') :
    Agrees exit id { block with instructions := block.instructions.map g } := by
  have hbody : ∀ {body : List Instruction}, (∀ i ∈ body, i.isPlain = true) →
      ∀ i ∈ body.map g, i.isPlain = true := by
    intro body h i hi
    obtain ⟨j, hj, rfl⟩ := List.mem_map.1 hi
    exact hplain (h j hj)
  cases h with
  | fall hexit h =>
    simpa [hlabel] using Agrees.fall hexit (hbody h)
  | goto hexit h =>
    simpa [hlabel, hgoto] using Agrees.goto hexit (hbody h)
  | @branch body condition target next hexit h =>
    obtain ⟨condition', hc⟩ := hbranch condition target
    simpa [hlabel, hc] using Agrees.branch hexit (hbody h)
  | @ret body value hexit h =>
    obtain ⟨value', hv⟩ := hret value
    simpa [hlabel, hv] using Agrees.ret hexit (hbody h)

theorem fold (h : block.Agrees exit id) : block.fold.Agrees exit id :=
  h.map rfl Instruction.isPlain_fold (fun _ => rfl) (fun condition _ => ⟨condition, rfl⟩)
    (fun value => ⟨value, rfl⟩)

theorem propagate (h : block.Agrees exit id) : (block.propagate table).Agrees exit id :=
  h.map rfl (Instruction.isPlain_mapReplaceable _) (fun _ => rfl) (fun _ _ => ⟨_, rfl⟩)
    (fun _ => ⟨_, rfl⟩)

theorem redirect (h : block.Agrees exit id) (source target : BlockId) :
    (block.redirect source target).Agrees exit id := by
  have hbody : ∀ {body : List Instruction}, (∀ i ∈ body, i.isPlain = true) →
      body.map (Instruction.retarget source target) = body := by
    intro body h
    calc body.map (Instruction.retarget source target)
        = body.map (fun i => i) :=
          List.map_congr_left fun i hi => Instruction.retarget_of_isPlain _ _ (h i hi)
      _ = body := List.map_id' body
  cases h with
  | fall hexit h =>
    simp only [Block.redirect, Function.redirect_link, List.map_cons, hbody h]
    exact .fall hexit h
  | goto hexit h =>
    simp only [Block.redirect, Function.redirect_link, List.map_cons, List.map_append, hbody h]
    exact .goto hexit h
  | branch hexit h =>
    simp only [Block.redirect, Function.redirect_link, List.map_cons, List.map_append, hbody h]
    exact .branch hexit h
  | ret hexit h =>
    simp only [Block.redirect, List.map_cons, List.map_append, hbody h]
    exact .ret hexit h

theorem decideBranch_body {body rest : List Instruction}
    (h : ∀ i ∈ body, i.isPlain = true) :
    decideBranch (.label id :: (body ++ rest)) =
      (decideBranch rest).map fun (l, target) => (.label id :: (body ++ l), target) := by
  have hbody : decideBranch (body ++ rest) =
      (decideBranch rest).map fun (l, target) => (body ++ l, target) := by
    induction body with
    | nil => simp
    | cons i body ih =>
      have hi := Instruction.isBranch_of_isPlain (h i (by simp))
      have hcons : decideBranch (i :: (body ++ rest)) =
          (decideBranch (body ++ rest)).map fun (l, target) => (i :: l, target) := by
        cases i with
        | branch => cases hi
        | _ => rfl
      rw [List.cons_append, hcons, ih fun j hj => h j (by simp [hj]), Option.map_map]
      rfl
  rw [decideBranch, hbody, Option.map_map]
  · rfl
  · simp

/-- Only a jump on a constant can be decided, and it is at the end of the block. -/
theorem exists_of_decideBranch (h : block.Agrees exit id) {target : Option BlockId}
    (hd : decideBranch block.instructions = some (l, target)) :
    ∃ body c t next, id ≠ exit ∧ (∀ i ∈ body, Instruction.isPlain i = true) ∧
      block = ⟨.label id :: (body ++ [Instruction.branch (.constant c) t]), some next, some t⟩ ∧
      (c.isZero = true ∧ l = .label id :: body ∧ target = none ∨
        c.isZero = false ∧ l = .label id :: (body ++ [Instruction.goto t]) ∧ target = some t) := by
  cases h with
  | @fall body next hexit h =>
    have hnone := @decideBranch_body id body [] h
    rw [List.append_nil] at hnone
    rw [hnone] at hd
    cases hd
  | goto hexit h =>
    rw [decideBranch_body h] at hd
    cases hd
  | @branch body condition t next hexit h =>
    rw [decideBranch_body h] at hd
    cases condition with
    | var v => cases hd
    | constant c =>
      refine ⟨body, c, t, next, hexit, h, rfl, ?_⟩
      rw [decideBranch] at hd
      cases hc : c.isZero with
      | true =>
        rw [hc, if_pos rfl] at hd
        cases hd
        exact .inl ⟨rfl, by rw [List.append_nil], rfl⟩
      | false =>
        rw [hc, if_neg Bool.false_ne_true] at hd
        cases hd
        exact .inr ⟨rfl, rfl, rfl⟩
  | ret hexit h =>
    rw [decideBranch_body h] at hd
    cases hd

theorem decide (h : block.Agrees exit id) {target : Option BlockId}
    (hd : decideBranch block.instructions = some (l, target)) :
    Agrees exit id ⟨l, target.or block.next, none⟩ := by
  obtain ⟨body, c, t, next, hexit, hbody, rfl, ⟨-, rfl, rfl⟩ | ⟨-, rfl, rfl⟩⟩ :=
    h.exists_of_decideBranch hd
  · exact .fall hexit hbody
  · exact .goto hexit hbody

theorem takeThrough_concat {p : Instruction → Bool} {l : List Instruction} {last : Instruction}
    (h : ∀ i ∈ l, p i = false) : takeThrough p (l ++ [last]) = l ++ [last] := by
  induction l with
  | nil => simp [takeThrough]
  | cons i rest ih =>
    have hi : p i = false := h i (by simp)
    simp [takeThrough, hi, ih fun j hj => h j (by simp [hj])]

/-- Nothing is behind a jump, so nothing is cut. -/
theorem cut_eq (h : block.Agrees exit id) : block.cut = block := by
  have hplain : ∀ {body : List Instruction}, (∀ i ∈ body, i.isPlain = true) →
      ∀ i ∈ (.label id :: body : List Instruction),
        i.isTerminator = false ∧ i.isBranch = false := by
    intro body h i hi
    rcases List.mem_cons.1 hi with rfl | hi
    · exact ⟨rfl, rfl⟩
    · exact ⟨Instruction.isTerminator_of_isPlain (h i hi), Instruction.isBranch_of_isPlain (h i hi)⟩
  have huncut : block.instructions.any Instruction.isTerminator = false → block.cut = block :=
    fun h => if_neg (by simp [h])
  cases h with
  | @fall body next hexit h =>
    refine huncut (List.any_eq_false.2 fun i hi => ?_)
    simp [(hplain h i hi).1]
  | @branch body condition target next hexit h =>
    refine huncut (List.any_eq_false.2 fun i hi => ?_)
    rw [← List.cons_append] at hi
    rcases List.mem_append.1 hi with hi | hi
    · simp [(hplain h i hi).1]
    · simp [List.mem_singleton.1 hi, Instruction.isTerminator]
  | @goto body target hexit h =>
    rw [Block.cut, ← List.cons_append, takeThrough_concat fun i hi => (hplain h i hi).1]
    simp only [List.getLast?_concat]
    simp [Instruction.isTerminator]
  | @ret body value hexit h =>
    rw [Block.cut, ← List.cons_append, takeThrough_concat fun i hi => (hplain h i hi).1]
    simp only [List.getLast?_concat]
    simp [Instruction.isTerminator]

theorem prune_eq (h : block.Agrees exit id) :
    block.prune table used =
      { block with instructions := block.instructions.filter (Block.keeps table used) } := by
  rw [Block.prune, h.cut_eq]
  rfl

theorem prune (h : block.Agrees exit id) : (block.prune table used).Agrees exit id := by
  have hfilter : ∀ {body : List Instruction}, (∀ i ∈ body, i.isPlain = true) →
      ∀ i ∈ body.filter (Block.keeps table used), i.isPlain = true :=
    fun h i hi => h i (List.mem_filter.1 hi).1
  have hkeeps : ∀ {i : Instruction}, i.hasSideEffect table = true →
      Block.keeps table used i = true := fun h => by simp [Block.keeps, h]
  rw [h.prune_eq]
  cases h with
  | fall hexit h =>
    rw [List.filter_cons_of_pos (hkeeps rfl)]
    exact .fall hexit (hfilter h)
  | goto hexit h =>
    rw [List.filter_cons_of_pos (hkeeps rfl), List.filter_append,
      List.filter_cons_of_pos (hkeeps rfl)]
    exact .goto hexit (hfilter h)
  | branch hexit h =>
    rw [List.filter_cons_of_pos (hkeeps rfl), List.filter_append,
      List.filter_cons_of_pos (hkeeps rfl)]
    exact .branch hexit (hfilter h)
  | ret hexit h =>
    rw [List.filter_cons_of_pos (hkeeps rfl), List.filter_append,
      List.filter_cons_of_pos (hkeeps rfl)]
    exact .ret hexit (hfilter h)

end Block.Agrees

theorem Block.Rewrite.agrees {f : Function} {exit id : BlockId} {block new : Block}
    (h : block.Rewrite table used f new) (ha : block.Agrees exit id) : new.Agrees exit id := by
  cases h with
  | fold => exact ha.fold
  | propagate => exact ha.propagate
  | prune => exact ha.prune
  | decide hd => exact ha.decide hd
  | redirect => exact ha.redirect _ _

/-! ## Where control goes -/

namespace Block.Agrees

variable {exit id : BlockId} {block : Block}

theorem mem_successors (h : block.Agrees exit id) {t : BlockId} (ht : block.JumpsTo t) :
    t ∈ block.successors := by
  obtain ⟨i, hi, ht⟩ := ht
  have hbody : ∀ {body : List Instruction}, (∀ i ∈ body, i.isPlain = true) → i ∉ body := by
    intro body h hi
    rw [Instruction.jumpsTo_of_isPlain (h i hi)] at ht
    cases ht
  cases h with
  | fall _ h =>
    rcases List.mem_cons.1 hi with rfl | hi
    · cases ht
    · exact absurd hi (hbody h)
  | goto _ h =>
    simp only [List.mem_cons, List.mem_append, hbody h, false_or, List.not_mem_nil, or_false] at hi
    rcases hi with rfl | rfl
    · cases ht
    · obtain rfl := beq_iff_eq.1 ht
      simp [Block.successors]
  | branch _ h =>
    simp only [List.mem_cons, List.mem_append, hbody h, false_or, List.not_mem_nil, or_false] at hi
    rcases hi with rfl | rfl
    · cases ht
    · obtain rfl := beq_iff_eq.1 ht
      simp [Block.successors]
  | ret _ h =>
    simp only [List.mem_cons, List.mem_append, hbody h, false_or, List.not_mem_nil, or_false] at hi
    rcases hi with rfl | rfl <;> cases ht

theorem successors_exit (h : block.Agrees exit exit) : block.successors = [] := by
  cases h with
  | fall hexit => exact absurd rfl hexit
  | goto hexit => exact absurd rfl hexit
  | branch hexit => exact absurd rfl hexit
  | ret => rfl

end Block.Agrees

namespace Function

def Agrees (f : Function) : Prop :=
  ∀ {j block}, f.block? j = some block → block.Agrees f.exit j

theorem Agrees.rewrite {f f' : Function} {id : BlockId} (ha : f.Agrees)
    (h : f.Rewrite table used id f') : f'.Agrees := by
  obtain ⟨block, new, hb, hrw, rfl⟩ := h
  intro j b hj
  exact forall_setBlock hb (Q := fun j b => b.Agrees f.exit j) ha (hrw.agrees (ha hb)) hj

end Function

end Cinder.Flow
