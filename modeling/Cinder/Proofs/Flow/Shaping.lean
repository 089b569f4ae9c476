import Cinder.Proofs.Flow.Drafting
import Cinder.Proofs.Flow.Temporaries

/-!
# The shape of drafts

Every step of lowering keeps the shape of the blocks and the temporaries in order,
as long as all handles fit.
-/

namespace Cinder.Flow

variable {ty : Ty} {id : BlockId} {name : String} {i : Instruction} {slots : Slots}
  {returnSlot : Option Variable} {block : Block} {supply' : Supply} {condition : Operand}

/-! ## Temporaries of straight code -/

structure Clean (table : SymbolTable) (l : List Instruction) : Prop where
  tidy : Tidy table l
  known : ∀ i ∈ l, ∀ v, i.definition = some v ∨ v ∈ i.uses → v.symbol < table.size

/-- A variable of a table that is none of the temporaries. -/
structure SlotIn (table : SymbolTable) (v : Variable) : Prop where
  known : v.symbol < table.size
  lasting : table.isTemporary v.symbol = false

variable {table table' : SymbolTable}

variable {v : Variable} {l : List Instruction} {supply : Supply}

theorem SlotIn.keeps (h : SlotIn table v) (hkeeps : table.Keeps table') :
    SlotIn table' v :=
  ⟨Nat.lt_of_lt_of_le h.known hkeeps.size_le, (hkeeps.isTemporary h.known).trans h.lasting⟩

theorem slotIn_of_get? {symbol : SymbolId} {ty : Option Ty} {origin : Origin}
    (h : table.get? symbol = some ⟨name, .var ty origin⟩) (horigin : origin ≠ .temporary) :
    SlotIn table { symbol } := by
  refine ⟨SymbolTable.lt_size_of_get? h, ?_⟩
  cases origin with
  | temporary => exact absurd rfl horigin
  | _ => simp only [SymbolTable.isTemporary, h]

theorem mem_definitions :
    v ∈ definitions l ↔ ∃ i ∈ l, i.definition = some v :=
  List.mem_filterMap

theorem mem_temporaries_iff :
    v ∈ temporaries table l ↔ table.isTemporary v.symbol = true ∧ v ∈ definitions l := by
  rw [mem_temporaries, mem_definitions]

theorem Instruction.isPlain_copy (slot source : Variable) (ty : Ty) :
    ∀ i ∈ [.alloca slot ty, .store slot (.var source) ty], Instruction.isPlain i = true := by
  simp [isPlain]

namespace Clean

variable {l : List Instruction}

theorem mem_definitions_lt (h : Clean table l) {v : Variable} (hv : v ∈ definitions l) :
    v.symbol < table.size := by
  obtain ⟨i, hi, hdef⟩ := mem_definitions.1 hv
  exact h.known i hi v (.inl hdef)

theorem label (id : BlockId) : Clean table [.label id] := by
  refine ⟨⟨List.nodup_nil, ?_⟩, ?_⟩
  · refine ⟨?_, trivial⟩
    intro v hv
    cases hv
  · intro i hi v hv
    cases List.mem_singleton.1 hi
    rcases hv with hv | hv <;> cases hv

section

variable (h : Clean table l)

include h

theorem keeps (hkeeps : table.Keeps table') : Clean table' l := by
  have htemp : ∀ i ∈ l, ∀ v, i.definition = some v ∨ v ∈ i.uses →
      table'.isTemporary v.symbol = table.isTemporary v.symbol :=
    fun i hi v hv => hkeeps.isTemporary (h.known i hi v hv)
  have hsame : ∀ i ∈ l, i.temporary? table' = i.temporary? table := by
    intro i hi
    refine Option.ext fun v => ?_
    rw [Instruction.temporary?_eq_some, Instruction.temporary?_eq_some]
    refine and_congr_right fun hdef => ?_
    rw [htemp i hi v (.inl hdef)]
  have hordered : ∀ {k written}, (∀ i ∈ k, i ∈ l) → ReadsWritten table written k →
      ReadsWritten table' written k := by
    intro k
    induction k with
    | nil => exact fun _ _ => trivial
    | cons i rest ih =>
      intro written hsub hk
      have hi := hsub i List.mem_cons_self
      refine ⟨fun v hv hv' => hk.1 v hv ?_, ?_⟩
      · rwa [← htemp i hi v (.inr hv)]
      · rw [hsame i hi]
        exact ih (fun j hj => hsub j (List.mem_cons_of_mem _ hj)) hk.2
  refine ⟨⟨?_, hordered (fun _ => id) h.tidy.ordered⟩, ?_⟩
  · rw [temporaries, List.filterMap_congr hsame]
    exact h.tidy.once
  · exact fun i hi v hv => Nat.lt_of_lt_of_le (h.known i hi v hv) hkeeps.size_le

/-- One more instruction, which reads what has been written before. -/
theorem snoc (hkeeps : table.Keeps table')
    (huses : ∀ v ∈ i.uses, SlotIn table v ∨ v ∈ definitions l)
    (hdef : ∀ v, i.definition = some v →
      v.symbol < table'.size ∧ (table'.isTemporary v.symbol = true → v ∉ definitions l)) :
    Clean table' (l ++ [i]) := by
  have h' := h.keeps hkeeps
  refine ⟨⟨?_, ?_⟩, ?_⟩
  · rw [temporaries_append, List.nodup_append]
    refine ⟨h'.tidy.once, ?_, ?_⟩
    · rw [temporaries_cons]
      exact (List.nodup_append_comm.1 (by cases i.temporary? table' <;> simp))
    · intro u hu v hv
      rintro rfl
      obtain ⟨htemp, j, hj, hjdef⟩ := mem_temporaries.1 hv
      cases List.mem_singleton.1 hj
      exact (hdef u hjdef).2 htemp (mem_temporaries_iff.1 hu).2
  · rw [readsWritten_append]
    refine ⟨h'.tidy.ordered, ?_, trivial⟩
    intro v hv htemp
    rw [List.nil_append, mem_temporaries_iff]
    rcases huses v hv with hslot | hmem
    · have hlasting := (hslot.keeps hkeeps).lasting
      rw [htemp] at hlasting
      cases hlasting
    · exact ⟨htemp, hmem⟩
  · intro j hj v hv
    rcases List.mem_append.1 hj with hj | hj
    · exact h'.known j hj v hv
    · cases List.mem_singleton.1 hj
      rcases hv with hv | hv
      · exact (hdef v hv).1
      · rcases huses v hv with hslot | hmem
        · exact (hslot.keeps hkeeps).known
        · exact h'.mem_definitions_lt hmem

theorem snoc_lasting (huses : ∀ v ∈ i.uses, SlotIn table v ∨ v ∈ definitions l)
    (hdef : ∀ v, i.definition = some v → SlotIn table v) : Clean table (l ++ [i]) := by
  refine h.snoc (.refl _) huses fun v hv => ⟨(hdef v hv).known, fun htemp => ?_⟩
  rw [(hdef v hv).lasting] at htemp
  cases htemp

theorem alloca (v : Variable) (ty : Ty) : Clean table (l ++ [Instruction.alloca v ty]) :=
  h.snoc_lasting nofun nofun

theorem copy {slot source : Variable} (hslot : SlotIn table slot)
    (hsource : SlotIn table source) (ty : Ty) :
    Clean table (l ++ [Instruction.alloca slot ty, .store slot (.var source) ty]) := by
  rw [List.append_cons]
  refine (h.alloca slot ty).snoc_lasting ?_ ?_
  · intro v hv
    cases List.mem_singleton.1 (Instruction.mem_uses.1 hv)
    exact .inl hsource
  · rintro v ⟨⟩
    exact hslot

end

end Clean

theorem Supply.size_temporary (supply : Supply) (ty : Ty) :
    (supply.temporary ty).2.symbols.size = supply.symbols.size + 1 :=
  SymbolTable.size_declareVariable ..

theorem Supply.temporary_symbol (h : supply.symbols.size < UInt32.size) (ty : Ty) :
    (supply.temporary ty).1.symbol = supply.symbols.size :=
  SymbolTable.next_eq h

theorem Clean.snoc_temporary (h : Clean supply.symbols l)
    (hfit : (supply.temporary ty).2.symbols.size ≤ UInt32.size)
    (huses : ∀ v ∈ i.uses, SlotIn supply.symbols v ∨ v ∈ definitions l)
    (hdef : i.definition = some (supply.temporary ty).1) :
    Clean (supply.temporary ty).2.symbols (l ++ [i]) := by
  rw [Supply.size_temporary] at hfit
  refine h.snoc (supply.keeps_temporary ty) huses fun v hv => ?_
  cases hdef.symm.trans hv
  rw [Supply.temporary_symbol hfit, Supply.size_temporary]
  refine ⟨Nat.lt_succ_self _, fun _ hmem => ?_⟩
  have hlt := h.mem_definitions_lt hmem
  rw [Supply.temporary_symbol hfit] at hlt
  exact Nat.lt_irrefl _ hlt

theorem Straight.clean {done : List Instruction} (h : Straight slots returnSlot supply l supply')
    (hfit : supply'.symbols.size ≤ UInt32.size)
    (hslots : ∀ v, v ∈ slots.map Prod.snd ∨ returnSlot = some v → SlotIn supply.symbols v)
    (hdone : Clean supply.symbols done) : Clean supply'.symbols (done ++ l) := by
  induction h with
  | nil => rwa [List.append_nil]
  | @load l supply' source ty h hsource ih =>
    have hle := (supply'.keeps_temporary ty).size_le
    rw [← List.append_assoc]
    refine (ih (Nat.le_trans hle hfit)).snoc_temporary hfit ?_ rfl
    intro v hv
    cases List.mem_singleton.1 hv
    exact .inl ((hslots _ (.inl hsource)).keeps h.keeps)
  | @compute l supply' i ty h hplain hdefinition huses ih =>
    have hle := (supply'.keeps_temporary ty).size_le
    rw [← List.append_assoc]
    refine (ih (Nat.le_trans hle hfit)).snoc_temporary hfit ?_ hdefinition
    exact fun v hv => .inr (mem_definitions_append_right (huses v hv))
  | call h huses ih =>
    rw [← List.append_assoc]
    refine (ih hfit).snoc_lasting ?_ nofun
    exact fun v hv => .inr (mem_definitions_append_right (huses v (Instruction.mem_uses.1 hv)))
  | @store l supply' slot value ty h hslot hvalue ih =>
    rw [← List.append_assoc]
    refine (ih hfit).snoc_lasting ?_ ?_
    · intro v hv
      have hmem := List.mem_singleton.1 (Instruction.mem_uses.1 hv)
      exact .inr (mem_definitions_append_right (hvalue v hmem.symm))
    · rintro v ⟨⟩
      exact (hslots slot hslot).keeps h.keeps

/-! ## Shape of a function under construction -/

theorem Block.isTerminated_concat {next branch : Option BlockId} (l : List Instruction)
    (h : i.isTerminator = true) :
    Block.isTerminated ⟨l ++ [i], next, branch⟩ = true := by
  simp [isTerminated, h]

def Block.IsOpen (id : BlockId) (block : Block) : Prop :=
  ∃ body, (∀ i ∈ body, Instruction.isPlain i = true) ∧ block = ⟨.label id :: body, none, none⟩

theorem Block.IsOpen.isTerminated (h : block.IsOpen id) :
    block.isTerminated = false := by
  obtain ⟨body, hbody, rfl⟩ := h
  refine (Option.any_eq_false _ _).2 fun i hi => ?_
  rcases List.mem_cons.1 (List.mem_of_getLast? hi) with rfl | hi
  · rfl
  · exact Instruction.isTerminator_of_isPlain (hbody i hi)

namespace Function

variable {f : Function}

theorem block?_modifyBlock (h : f.block? id = some block) (change : Block → Block) (j : BlockId) :
    (f.modifyBlock id change).block? j = if j = id then some (change block) else f.block? j := by
  rw [modifyBlock_of_block? h, block?_setBlock h]

theorem block?_addBlock (hfit : f.blocks.size < UInt32.size) (j : BlockId) :
    f.addBlock.block? j =
      if j = f.blocks.size then some (.labelled f.blocks.size) else f.block? j := by
  rw [addBlock, Arena.next_eq hfit]
  exact Arena.get?_push ..

theorem block?_addBlock_of_lt (hfit : f.blocks.size < UInt32.size) {j : BlockId}
    (hj : j < f.blocks.size) : f.addBlock.block? j = f.block? j := by
  rw [block?_addBlock hfit, if_neg (Nat.ne_of_lt hj)]

@[simp] theorem size_addBlock (f : Function) : f.addBlock.blocks.size = f.blocks.size + 1 :=
  Arena.size_push ..

/-- The exit and the blocks that wait hold nothing but their labels, and all blocks
but the current one are complete.  The current block has a shape of its own. -/
structure Shaped (f : Function) (pending : List BlockId) (current : BlockId)
    (shape : Block → Prop) : Prop where
  entry : f.entry < f.blocks.size
  nodup : (current :: f.exit :: pending).Nodup
  waiting : ∀ j ∈ f.exit :: pending, f.block? j = some (.labelled j)
  shape : ∃ block, f.block? current = some block ∧ shape block
  complete : ∀ {j block}, f.block? j = some block → j ∉ current :: f.exit :: pending →
    block.Agrees f.exit j
  linked : ∀ {j block n}, f.block? j = some block → n ∈ block.successors → n < f.blocks.size

namespace Shaped

variable {f : Function} {pending : List BlockId} {current : BlockId} {shape shape' : Block → Prop}

section

variable (h : f.Shaped pending current shape)

include h

theorem current_ne_exit : current ≠ f.exit := by
  intro he
  have := (List.nodup_cons.1 h.nodup).1
  simp [he] at this

theorem lt_size {j : BlockId} (hj : j ∈ f.exit :: pending) : j < f.blocks.size :=
  lt_size_of_block? (h.waiting j hj)

theorem imp (himp : ∀ block, shape block → shape' block) : f.Shaped pending current shape' := by
  obtain ⟨block, hb, hshape⟩ := h.shape
  exact ⟨h.entry, h.nodup, h.waiting, ⟨block, hb, himp block hshape⟩, h.complete, h.linked⟩

theorem current_lt : current < f.blocks.size := by
  obtain ⟨block, hb, -⟩ := h.shape
  exact lt_size_of_block? hb

theorem perm {pending' : List BlockId}
    (hperm : pending.Perm pending') : f.Shaped pending' current shape := by
  have hmem : ∀ {j}, j ∈ f.exit :: pending' → j ∈ f.exit :: pending :=
    fun hj => ((hperm.cons f.exit).mem_iff).2 hj
  refine ⟨h.entry, ((hperm.cons _).cons _).nodup_iff.1 h.nodup, fun j hj => h.waiting j (hmem hj),
    h.shape, fun hb hj => h.complete hb ?_, h.linked⟩
  exact fun hj' => hj (((hperm.cons _).cons _).mem_iff.1 hj')

theorem modify {change : Block → Block} (hb : f.block? current = some block)
    (hshape : shape' (change block)) (hlinks : ∀ n ∈ (change block).successors, n < f.blocks.size) :
    (f.modifyBlock current change).Shaped pending current shape' := by
  have hother : ∀ {j}, j ≠ current → (f.modifyBlock current change).block? j = f.block? j := by
    intro j hj
    rw [block?_modifyBlock hb, if_neg hj]
  have hself : (f.modifyBlock current change).block? current = some (change block) := by
    rw [block?_modifyBlock hb, if_pos rfl]
  have hnodup := h.nodup
  have hf : f.modifyBlock current change = f.setBlock current (change block) :=
    modifyBlock_of_block? hb change
  refine ⟨?_, ?_, ?_, ⟨_, hself, ?_⟩, ?_, ?_⟩
  · simpa [hf] using h.entry
  · simpa [hf] using hnodup
  · intro j hj
    rw [modifyBlock_exit] at hj
    have hne : j ≠ current := by
      rintro rfl
      exact (List.nodup_cons.1 hnodup).1 hj
    rw [hother hne]
    exact h.waiting j hj
  · exact hshape
  · intro j other hj hmem
    rw [modifyBlock_exit] at hmem ⊢
    rw [hother fun he => hmem (he ▸ List.mem_cons_self)] at hj
    exact h.complete hj hmem
  · intro j other n hj hn
    rw [modifyBlock_size]
    by_cases he : j = current
    · subst he
      cases hself.symm.trans hj
      exact hlinks n hn
    · rw [hother he] at hj
      exact h.linked hj hn

end

theorem append {l : List Instruction} (h : f.Shaped pending current (Block.IsOpen current))
    (hl : ∀ i ∈ l, i.isPlain = true) :
    (f.modifyBlock current fun block =>
      { block with instructions := block.instructions ++ l }).Shaped pending current
        (Block.IsOpen current) := by
  obtain ⟨_, hb, body, hbody, rfl⟩ := h.shape
  refine h.modify hb ⟨body ++ l, ?_, rfl⟩ nofun
  exact fun i hi => (List.mem_append.1 hi).elim (hbody i) (hl i)

theorem goto {target : BlockId} (h : f.Shaped pending current (Block.IsOpen current))
    (htarget : target < f.blocks.size) :
    (f.modifyBlock current fun block =>
      { block with
        instructions := block.instructions ++ [.goto target], next := some target }).Shaped
        pending current fun block => block.Agrees f.exit current ∧ block.isTerminated = true := by
  obtain ⟨_, hb, body, hbody, rfl⟩ := h.shape
  refine h.modify hb ⟨.goto h.current_ne_exit hbody, ?_⟩ ?_
  · exact Block.isTerminated_concat (.label current :: body) rfl
  · intro n hn
    cases List.mem_singleton.1 hn
    exact htarget

theorem addBlock (h : f.Shaped pending current shape) (hfit : f.blocks.size < UInt32.size) :
    f.addBlock.Shaped (f.blocks.size :: pending) current shape := by
  obtain ⟨block, hb, hshape⟩ := h.shape
  have hcurrent := lt_size_of_block? hb
  refine ⟨?_, ?_, ?_, ⟨block, (block?_addBlock_of_lt hfit hcurrent).trans hb, hshape⟩, ?_, ?_⟩
  · rw [size_addBlock]
    exact Nat.lt_succ_of_lt h.entry
  · have hfresh : ∀ j ∈ current :: f.exit :: pending, j ≠ f.blocks.size := by
      intro j hj
      rcases List.mem_cons.1 hj with rfl | hj
      · exact Nat.ne_of_lt hcurrent
      · exact Nat.ne_of_lt (h.lt_size hj)
    have hnodup : (f.blocks.size :: current :: f.exit :: pending).Nodup :=
      List.nodup_cons.2 ⟨fun hmem => hfresh _ hmem rfl, h.nodup⟩
    refine (List.Perm.nodup_iff ?_).1 hnodup
    exact (List.Perm.swap ..).trans ((List.Perm.swap ..).cons _)
  · intro j hj
    have hj : j ∈ f.exit :: f.blocks.size :: pending := hj
    rw [block?_addBlock hfit]
    split
    · rename_i he
      rw [he]
    · rename_i hne
      refine h.waiting j ?_
      rcases List.mem_cons.1 hj with he | hj
      · exact he ▸ List.mem_cons_self
      · exact List.mem_cons_of_mem _ ((List.mem_cons.1 hj).resolve_left hne)
  · intro j other hj hmem
    rw [block?_addBlock hfit] at hj
    have hmem : j ∉ current :: f.exit :: f.blocks.size :: pending := hmem
    rw [if_neg fun he => hmem (by simp [he])] at hj
    refine h.complete hj fun hj' => hmem ?_
    simp only [List.mem_cons] at hj' ⊢
    tauto
  · intro j other n hj hn
    rw [size_addBlock]
    rw [block?_addBlock hfit] at hj
    split at hj
    · cases hj
      cases hn
    · exact Nat.lt_succ_of_lt (h.linked hj hn)

theorem branch {condition : Operand} {taken otherwise : BlockId}
    (h : f.Shaped pending current (Block.IsOpen current)) (htaken : taken < f.blocks.size)
    (hotherwise : otherwise < f.blocks.size) :
    (f.modifyBlock current fun block =>
      { block with
        instructions := block.instructions ++ [.branch condition taken]
        next := some otherwise
        branch := some taken }).Shaped pending current (Block.Agrees f.exit current) := by
  obtain ⟨_, hb, body, hbody, rfl⟩ := h.shape
  refine h.modify hb (.branch h.current_ne_exit hbody) ?_
  intro n hn
  rcases List.mem_cons.1 hn with rfl | hn
  · exact hotherwise
  · cases List.mem_singleton.1 hn
    exact htaken

theorem enter (h : f.Shaped (id :: pending) current (Block.Agrees f.exit current)) :
    f.Shaped pending id (Block.IsOpen id) := by
  have hnodup := h.nodup
  have hid : id ∈ f.exit :: id :: pending := List.mem_cons_of_mem _ List.mem_cons_self
  have hshape : Block.IsOpen id (.labelled id) := ⟨[], by simp, rfl⟩
  obtain ⟨ended, hended, hagrees⟩ := h.shape
  refine ⟨h.entry, ?_, ?_, ⟨_, h.waiting id hid, hshape⟩, ?_, h.linked⟩
  · exact (List.Perm.swap ..).nodup_iff.1 (List.nodup_cons.1 hnodup).2
  · intro j hj
    refine h.waiting j ?_
    rcases List.mem_cons.1 hj with rfl | hj
    · exact List.mem_cons_self
    · exact List.mem_cons_of_mem _ (List.mem_cons_of_mem _ hj)
  · intro j block hb hj
    by_cases he : j = current
    · subst he
      cases hended.symm.trans hb
      exact hagrees
    · refine h.complete hb fun hj' => hj ?_
      exact (List.Perm.swap ..).mem_iff.1 ((List.mem_cons.1 hj').resolve_left he)

end Shaped

def CleanIn (table : SymbolTable) (f : Function) : Prop :=
  ∀ j block, f.block? j = some block → Clean table block.instructions

theorem CleanIn.keeps (h : f.CleanIn table) (hkeeps : table.Keeps table') :
    f.CleanIn table' :=
  fun j block hb => (h j block hb).keeps hkeeps

theorem CleanIn.modify {change : Block → Block} (h : f.CleanIn table) (hkeeps : table.Keeps table')
    (hb : f.block? id = some block) (hchange : Clean table' (change block).instructions) :
    (f.modifyBlock id change).CleanIn table' := by
  intro j other hj
  rw [block?_modifyBlock hb] at hj
  split at hj
  · cases hj
    exact hchange
  · exact (h j other hj).keeps hkeeps

theorem CleanIn.addBlock (h : f.CleanIn table) (hfit : f.blocks.size < UInt32.size) :
    f.addBlock.CleanIn table := by
  intro j other hj
  rw [block?_addBlock hfit] at hj
  split at hj
  · cases hj
    exact Clean.label _
  · exact h j other hj

end Function

/-! ## Steps keep functions in shape -/

namespace Draft

theorem function_jump (draft : Draft) (target : BlockId) :
    (draft.jump target).function = draft.function.modifyBlock draft.current fun block =>
      { block with
        instructions := block.instructions ++ [.goto target]
        next := some target } := by
  rw [jump, emit, Function.modifyBlock_modifyBlock]

@[simp] theorem exit_jump (draft : Draft) (target : BlockId) :
    (draft.jump target).function.exit = draft.function.exit := by
  rw [function_jump, Function.modifyBlock_exit]

theorem function_split (draft : Draft) (condition : Operand) (taken otherwise : BlockId) :
    (draft.split condition taken otherwise).function =
      draft.function.modifyBlock draft.current fun block =>
        { block with
          instructions := block.instructions ++ [.branch condition taken]
          next := some otherwise
          branch := some taken } := by
  rw [split, emit, Function.modifyBlock_modifyBlock]

@[simp] theorem exit_jumpIfOpen (draft : Draft) (target : BlockId) :
    (draft.jumpIfOpen target).function.exit = draft.function.exit := by
  rw [jumpIfOpen]
  split
  · rfl
  · rw [exit_jump]

@[simp] theorem size_jumpIfOpen (draft : Draft) (target : BlockId) :
    (draft.jumpIfOpen target).function.blocks.size = draft.function.blocks.size := by
  rw [jumpIfOpen]
  split
  · rfl
  · rw [function_jump, Function.modifyBlock_size]

theorem forkTargets_eq {draft : Draft} (hfit : draft.function.blocks.size + 3 ≤ UInt32.size) :
    draft.forkTargets = (draft.function.blocks.size, draft.function.blocks.size + 1,
      draft.function.blocks.size + 2) := by
  have hsize₁ := draft.function.size_addBlock
  have hsize₂ := draft.function.addBlock.size_addBlock
  rw [forkTargets, Arena.next_eq (by omega), Arena.next_eq (by omega), Arena.next_eq (by omega),
    hsize₂, hsize₁]

theorem addBlocks_lt {draft : Draft} (hfit : draft.function.blocks.size + 3 ≤ UInt32.size) :
    draft.function.blocks.size < UInt32.size ∧
      draft.function.addBlock.blocks.size < UInt32.size ∧
      draft.function.addBlock.addBlock.blocks.size < UInt32.size := by
  have hsize₁ := draft.function.size_addBlock
  have hsize₂ := draft.function.addBlock.size_addBlock
  omega

theorem block?_addBlocks {draft : Draft} (hfit : draft.function.blocks.size + 3 ≤ UInt32.size)
    (j : BlockId) (hj : j < draft.function.blocks.size) :
    draft.function.addBlock.addBlock.addBlock.block? j = draft.function.block? j := by
  have hsize₁ := draft.function.size_addBlock
  have hsize₂ := draft.function.addBlock.size_addBlock
  rw [Function.block?_addBlock_of_lt (by omega) (Nat.lt_of_lt_of_le hj (by omega)),
    Function.block?_addBlock_of_lt (by omega) (Nat.lt_of_lt_of_le hj (by omega)),
    Function.block?_addBlock_of_lt (by omega) hj]

theorem exit_fork (draft : Draft) (condition : Operand) :
    (draft.fork condition).function.exit = draft.function.exit := by
  simp only [fork, enter, function_split, Function.modifyBlock_exit]
  rfl

theorem size_fork (draft : Draft) (condition : Operand) :
    (draft.fork condition).function.blocks.size = draft.function.blocks.size + 3 := by
  simp [fork, enter, function_split]

end Draft

namespace Stage

structure Fits (s : Stage) : Prop where
  symbols : s.draft.supply.symbols.size ≤ UInt32.size
  blocks : s.draft.function.blocks.size ≤ UInt32.size

/-- What the current block looks like: it can take more instructions, or it jumps
away at its end. -/
def shape (s : Stage) : Block → Prop :=
  if s.isOpen then Block.IsOpen s.draft.current
  else fun block => block.Agrees s.draft.function.exit s.draft.current ∧ block.isTerminated = true

/-- What holds of every draft on the way. -/
structure Sound (s : Stage) : Prop where
  shaped : s.draft.function.Shaped s.pending s.draft.current s.shape
  clean : s.draft.function.CleanIn s.draft.supply.symbols
  slots : ∀ v, v ∈ s.draft.slots.map Prod.snd ∨ s.draft.returnSlot = some v →
    SlotIn s.draft.supply.symbols v

variable {pending : List BlockId} {draft : Draft}

theorem Sound.emit {l : List Instruction} {supply : Supply}
    (h : Stage.Sound ⟨pending, draft, true⟩) (hl : ∀ i ∈ l, i.isPlain = true)
    (hkeeps : draft.supply.symbols.Keeps supply.symbols)
    (hclean : ∀ done, Clean draft.supply.symbols done → Clean supply.symbols (done ++ l)) :
    Stage.Sound ⟨pending, draft.extend l supply, true⟩ := by
  obtain ⟨block, hb, -⟩ := h.shaped.shape
  refine ⟨h.shaped.append hl, ?_, fun v hv => (h.slots v hv).keeps hkeeps⟩
  exact h.clean.modify hkeeps hb (hclean _ (h.clean _ _ hb))

theorem Sound.rebind {isOpen : Bool} (h : Stage.Sound ⟨pending, draft, isOpen⟩)
    (parameters : List Variable)
    (hslots : ∀ v, v ∈ slots.map Prod.snd ∨ returnSlot = some v →
      SlotIn draft.supply.symbols v) :
    Stage.Sound ⟨pending,
      { draft with function := { draft.function with parameters }, slots, returnSlot }, isOpen⟩ :=
  ⟨⟨h.shaped.entry, h.shaped.nodup, h.shaped.waiting, h.shaped.shape, h.shaped.complete,
    h.shaped.linked⟩, h.clean, hslots⟩

end Stage

theorem Supply.slotIn_slot {origin : Origin}
    (hfit : (supply.slot name ty origin).2.symbols.size ≤ UInt32.size)
    (horigin : origin ≠ .temporary) :
    SlotIn (supply.slot name ty origin).2.symbols (supply.slot name ty origin).1 := by
  have hsize : (supply.slot name ty origin).2.symbols.size = supply.symbols.size + 1 :=
    SymbolTable.size_declareVariable ..
  rw [hsize] at hfit
  have hget : (supply.slot name ty origin).2.symbols.get? supply.symbols.next =
      some ⟨name, .var (some ty) origin⟩ := by
    change (supply.symbols.insert _).get? _ = _
    rw [SymbolTable.get?_insert, SymbolTable.next_eq hfit, if_pos rfl]
  exact slotIn_of_get? hget horigin

theorem Straight.isPlain (h : Straight slots returnSlot supply l supply') :
    ∀ i ∈ l, i.isPlain = true := by
  induction h with
  | nil => simp
  | load _ _ ih => simpa [or_imp, forall_and] using ⟨ih, rfl⟩
  | compute _ hplain _ _ ih => simpa [or_imp, forall_and] using ⟨ih, hplain⟩
  | call _ _ ih => simpa [or_imp, forall_and] using ⟨ih, rfl⟩
  | store _ _ _ ih => simpa [or_imp, forall_and] using ⟨ih, rfl⟩

/-- Straight code writes new temporaries and slots. -/
theorem Straight.mem_definitions (h : Straight slots returnSlot supply l supply')
    (hfit : supply'.symbols.size ≤ UInt32.size) {v : Variable} (hv : v ∈ definitions l) :
    supply.symbols.size ≤ v.symbol ∨ v ∈ slots.map Prod.snd ∨ returnSlot = some v := by
  have hnew : ∀ {supply' : Supply} {ty : Ty}, supply.symbols.Keeps supply'.symbols →
      (supply'.temporary ty).2.symbols.size ≤ UInt32.size →
        supply.symbols.size ≤ (supply'.temporary ty).1.symbol := by
    intro supply' ty hkeeps hfit
    rw [Supply.size_temporary] at hfit
    rw [Supply.temporary_symbol hfit]
    exact hkeeps.size_le
  induction h with
  | nil => cases hv
  | @load l supply' source ty h hsource ih =>
    rcases mem_definitions_snoc.1 hv with hv | hv
    · exact ih (Nat.le_trans (supply'.keeps_temporary ty).size_le hfit) hv
    · cases hv
      exact .inl (hnew h.keeps hfit)
  | @compute l supply' i ty h hplain hdefinition huses ih =>
    rcases mem_definitions_snoc.1 hv with hv | hv
    · exact ih (Nat.le_trans (supply'.keeps_temporary ty).size_le hfit) hv
    · cases hdefinition.symm.trans hv
      exact .inl (hnew h.keeps hfit)
  | call h huses ih => exact ih hfit ((mem_definitions_snoc.1 hv).resolve_right (by rintro ⟨⟩))
  | store h hslot hvalue ih =>
    rcases mem_definitions_snoc.1 hv with hv | hv
    · exact ih hfit hv
    · cases hv
      exact .inr hslot

namespace Stage

variable {pending : List BlockId} {draft : Draft}

variable {isOpen : Bool} {first : Nat} {s s' : Stage}

theorem Sound.perm {pending' : List BlockId} (h : Stage.Sound ⟨pending, draft, isOpen⟩)
    (hperm : pending.Perm pending') :
    Stage.Sound ⟨pending', draft, isOpen⟩ :=
  ⟨h.shaped.perm hperm, h.clean, h.slots⟩

section

variable (h : Stage.Sound ⟨pending, draft, true⟩)

include h

theorem Sound.extend {l : List Instruction} {supply : Supply}
    (hl : Straight draft.slots draft.returnSlot draft.supply l supply)
    (hfit : supply.symbols.size ≤ UInt32.size) :
    Stage.Sound ⟨pending, draft.extend l supply, true⟩ :=
  h.emit hl.isPlain hl.keeps fun _ hdone => hl.clean hfit h.slots hdone

theorem Sound.reserve (hty : draft.function.returnType = some ty)
    (hfit : draft.declareReturn.supply.symbols.size ≤ UInt32.size) :
    Stage.Sound ⟨pending, draft.declareReturn, true⟩ := by
  simp only [Draft.declareReturn, hty] at hfit ⊢
  have hslot := draft.supply.slotIn_slot hfit (by simp)
  have hkeeps : draft.supply.symbols.Keeps (draft.supply.slot "$ret" ty .returnSlot).2.symbols :=
    SymbolTable.keeps_declareVariable ..
  have hemit := h.emit (by simp [Instruction.isPlain]) hkeeps fun done hdone =>
    (hdone.keeps hkeeps).alloca (draft.supply.slot "$ret" ty .returnSlot).1 ty
  refine hemit.rebind _ ?_
  rintro v (hv | hv)
  · exact (h.slots v (.inl hv)).keeps hkeeps
  · cases hv
    exact hslot

theorem Sound.parameter {parameter : Parameter SymbolId}
    (hget : draft.supply.symbols.get? parameter.symbol = some ⟨name, .var (some ty) .parameter⟩)
    (hfit : (draft.bindParameter parameter ty).supply.symbols.size ≤ UInt32.size) :
    Stage.Sound ⟨pending, draft.bindParameter parameter ty, true⟩ := by
  have hslot := Supply.slotIn_slot hfit (by simp)
  have hkeeps : draft.supply.symbols.Keeps (draft.bindParameter parameter ty).supply.symbols :=
    SymbolTable.keeps_declareVariable ..
  have hincoming := (slotIn_of_get? hget (by simp)).keeps hkeeps
  have hemit := h.emit (Instruction.isPlain_copy _ _ _) hkeeps fun done hdone =>
    (hdone.keeps hkeeps).copy hslot hincoming ty
  refine hemit.rebind _ ?_
  rintro v (hv | hv)
  · rcases List.mem_cons.1 hv with rfl | hv
    · exact hslot
    · exact (h.slots v (.inl hv)).keeps hkeeps
  · exact (h.slots v (.inr hv)).keeps hkeeps

theorem Sound.declare {symbol : SymbolId}
    (hget : draft.supply.symbols.get? symbol = some ⟨name, .var (some ty) .user⟩) :
    Stage.Sound
      ⟨pending, (draft.emit [.alloca { symbol } ty]).bindSlot symbol { symbol }, true⟩ := by
  have hemit := h.emit (by simp [Instruction.isPlain]) (.refl _) fun done hdone =>
    hdone.alloca { symbol } ty
  refine hemit.rebind _ ?_
  rintro v (hv | hv)
  · rcases List.mem_cons.1 hv with rfl | hv
    · exact slotIn_of_get? hget (by simp)
    · exact h.slots v (.inl hv)
  · exact h.slots v (.inr hv)

theorem Sound.jump {target : BlockId} (htarget : target < draft.function.blocks.size) :
    Stage.Sound ⟨pending, draft.jump target, false⟩ := by
  obtain ⟨block, hb, -⟩ := h.shaped.shape
  refine ⟨?_, ?_, h.slots⟩
  · change (draft.jump target).function.Shaped pending draft.current fun block =>
      block.Agrees (draft.jump target).function.exit draft.current ∧ block.isTerminated = true
    rw [Draft.exit_jump, Draft.function_jump]
    exact Function.Shaped.goto h.shaped htarget
  · change (draft.jump target).function.CleanIn _
    rw [Draft.function_jump]
    exact h.clean.modify (.refl _) hb ((h.clean _ _ hb).snoc_lasting nofun nofun)

theorem Sound.addBlock (hfit : draft.function.blocks.size < UInt32.size) :
    Stage.Sound ⟨draft.function.blocks.size :: pending,
      { draft with function := draft.function.addBlock }, true⟩ :=
  ⟨h.shaped.addBlock hfit, h.clean.addBlock hfit, h.slots⟩

end

theorem Sound.branch {taken otherwise : BlockId} (h : Stage.Sound ⟨taken :: pending, draft, true⟩)
    (hotherwise : otherwise < draft.function.blocks.size)
    (hcondition : ∀ v, condition = .var v → ∀ block,
      draft.function.block? draft.current = some block → v ∈ definitions block.instructions) :
    Stage.Sound ⟨pending, (draft.split condition taken otherwise).enter taken, true⟩ := by
  obtain ⟨block, hb, -⟩ := h.shaped.shape
  have htaken := h.shaped.lt_size (List.mem_cons_of_mem _ List.mem_cons_self)
  refine ⟨?_, ?_, h.slots⟩
  · have hshaped : (draft.split condition taken otherwise).function.Shaped (taken :: pending)
        draft.current
        (Block.Agrees (draft.split condition taken otherwise).function.exit draft.current) := by
      rw [Draft.function_split, Function.modifyBlock_exit]
      exact Function.Shaped.branch h.shaped htaken hotherwise
    exact hshaped.enter
  · change (draft.split condition taken otherwise).function.CleanIn _
    rw [Draft.function_split]
    refine h.clean.modify (.refl _) hb ((h.clean _ _ hb).snoc_lasting ?_ nofun)
    intro v hv
    have hmem := List.mem_singleton.1 (Instruction.mem_uses.1 hv)
    exact .inr (hcondition v hmem.symm block hb)

/-- Going on in the first of three new blocks if a condition holds. -/
theorem Sound.fork (h : Stage.Sound ⟨pending, draft, true⟩)
    (hfit : draft.function.blocks.size + 3 ≤ UInt32.size)
    (hcondition : ∀ v, condition = .var v → ∀ block,
      draft.function.block? draft.current = some block → v ∈ definitions block.instructions) :
    Stage.Sound ⟨draft.forkTargets.2.1 :: draft.forkTargets.2.2 :: pending,
      draft.fork condition, true⟩ := by
  obtain ⟨hfit₁, hfit₂, hfit₃⟩ := Draft.addBlocks_lt hfit
  have hadded := ((h.addBlock hfit₁).addBlock hfit₂).addBlock hfit₃
  simp only [Draft.fork, Draft.forkTargets, Arena.next_eq hfit₁, Arena.next_eq hfit₂,
    Arena.next_eq hfit₃]
  refine Sound.branch (hadded.perm ?_) ?_ ?_
  · exact ((List.Perm.swap ..).cons _).trans
      ((List.Perm.swap ..).trans ((List.Perm.swap ..).cons _))
  · simp
  · intro v hv block hb
    have hsame := Draft.block?_addBlocks hfit draft.current h.shaped.current_lt
    exact hcondition v hv block (hsame.symm.trans hb)

/-- The current block goes on to a block that waits, unless it is ended already. -/
theorem Sound.jumpIfOpen {after : BlockId} (h : Stage.Sound ⟨pending, draft, isOpen⟩)
    (hafter : after ∈ draft.function.exit :: pending) :
    Stage.Sound ⟨pending, draft.jumpIfOpen after, false⟩ := by
  obtain ⟨block, hb, hshape⟩ := h.shaped.shape
  have hb : draft.function.block? draft.current = some block := hb
  rw [Draft.jumpIfOpen, Draft.isTerminated, hb, Option.any_some]
  cases isOpen with
  | true =>
    rw [Block.IsOpen.isTerminated hshape, if_neg Bool.false_ne_true]
    exact h.jump (h.shaped.lt_size hafter)
  | false =>
    rw [hshape.2, if_pos rfl]
    exact h

theorem Sound.join {after : BlockId} (h : Stage.Sound ⟨id :: pending, draft, isOpen⟩)
    (hafter : after ∈ id :: pending) :
    Stage.Sound ⟨pending, (draft.jumpIfOpen after).enter id, true⟩ := by
  have h' := h.jumpIfOpen (List.mem_cons_of_mem _ hafter)
  exact ⟨Function.Shaped.enter (h'.shaped.imp fun block h => h.1), h'.clean, h'.slots⟩

theorem Step.fits (h : Stage.Step first s s') (hfit : s'.Fits) :
    s.Fits := by
  refine ⟨Nat.le_trans h.keeps.size_le hfit.symbols, Nat.le_trans ?_ hfit.blocks⟩
  cases h with
  | declare hfirst h => simp [Draft.bindSlot, Draft.emit]
  | extend h => simp [Draft.extend, Draft.emit]
  | leave => simp [Draft.function_jump]
  | fork h hcondition => simp [Draft.size_fork, Draft.extend, Draft.emit]
  | join h => simp [Draft.enter]

theorem Step.sound (h : Stage.Step first s s') (hfit : s'.Fits) (hs : s.Sound) : s'.Sound := by
  cases h with
  | declare hfirst h => exact hs.declare h
  | extend h => exact hs.extend h hfit.symbols
  | leave => exact hs.jump (hs.shaped.lt_size List.mem_cons_self)
  | @fork pending draft l supply condition h hcondition =>
    have hsize : (draft.extend l supply).function.blocks.size + 3 ≤ UInt32.size :=
      Draft.size_fork (draft.extend l supply) condition ▸ hfit.blocks
    refine (hs.extend h hfit.symbols).fork hsize ?_
    intro v hv block hb
    obtain ⟨old, hold, -⟩ := hs.shaped.shape
    cases ((Function.block?_modifyBlock hold _ _).trans (if_pos rfl)).symm.trans hb
    exact mem_definitions_append_right (hcondition v hv)
  | join h => exact hs.join h

theorem Steps.fits (h : Stage.Steps first s s') (hfit : s'.Fits) :
    s.Fits := by
  induction h with
  | refl => exact hfit
  | tail _ h ih => exact ih (h.fits hfit)

theorem Steps.sound (h : Stage.Steps first s s') (hfit : s'.Fits) (hs : s.Sound) : s'.Sound := by
  induction h with
  | refl => exact hs
  | tail _ h ih => exact h.sound hfit (ih (h.fits hfit))

end Stage

end Cinder.Flow
