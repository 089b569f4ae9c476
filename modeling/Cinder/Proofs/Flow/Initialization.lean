import Cinder.Proofs.Flow.Functions
import Cinder.Proofs.Flow.Stores
import Cinder.Proofs.Flow.Translation

/-!
# Slots are stored in before they are read

At every point of lowering some slots are sure to hold a value: those of the parameters,
those of variables that were declared with a value, and the return slot where all paths
have returned.  The last is known at a join that no path gets to, which is why the code
behind it may go on to the exit.
-/

namespace Cinder

variable {expr : Expr.Typed} {code : Code}

namespace Flow

variable {table : SymbolTable} {ready : Set Variable}

/-! ## Straight code -/

theorem Supply.isTemporary_of_keeps {supply : Supply} {ty : Ty}
    (h : (supply.temporary ty).2.symbols.Keeps table) (hfit : table.size ≤ UInt32.size) :
    table.isTemporary (supply.temporary ty).1.symbol = true := by
  have hsize := supply.size_temporary ty
  have hle := h.size_le
  have hlt : supply.symbols.size < UInt32.size := by omega
  have hsymbol : (supply.temporary ty).1.symbol < (supply.temporary ty).2.symbols.size := by
    rw [Supply.temporary_symbol hlt, hsize]
    exact Nat.lt_succ_self _
  rw [h.isTemporary hsymbol, Supply.isTemporary_temporary hlt]

section

variable {slots : Slots} {returnSlot : Option Variable} {supply supply' : Supply}
  {l : List Instruction} {v : Variable}

section

variable (h : Straight slots returnSlot supply l supply') (hkeeps : supply'.symbols.Keeps table)
  (hfit : table.size ≤ UInt32.size)

include h hkeeps hfit

/-- What straight code writes is a temporary, unless the code stores in it. -/
theorem Straight.mem_stored (hlasting : table.isTemporary v.symbol = false)
    (hv : v ∈ definitions l) : v ∈ stored l := by
  -- the result of a computation is a temporary
  have hcompute : ∀ {l : List Instruction} {i : Instruction} {supply : Supply} {ty : Ty},
      (supply.temporary ty).2.symbols.Keeps table → i.definition = some (supply.temporary ty).1 →
      (v ∈ definitions l → v ∈ stored l) → v ∈ definitions (l ++ [i]) → v ∈ stored (l ++ [i]) := by
    intro l i supply ty hkeeps hdefinition ih hv
    rw [stored_append]
    rcases mem_definitions_snoc.1 hv with hv | hv
    · exact .inl (ih hv)
    · cases hdefinition.symm.trans hv
      rw [Supply.isTemporary_of_keeps hkeeps hfit] at hlasting
      cases hlasting
  induction h with
  | nil => cases hv
  | load _ _ ih =>
    exact hcompute hkeeps rfl (ih ((Supply.keeps_temporary ..).trans hkeeps)) hv
  | compute _ _ hdefinition _ ih =>
    exact hcompute hkeeps hdefinition (ih ((Supply.keeps_temporary ..).trans hkeeps)) hv
  | call _ _ ih =>
    rw [stored_append]
    exact .inl (ih hkeeps ((mem_definitions_snoc.1 hv).resolve_right (by rintro ⟨⟩)))
  | store _ _ _ ih =>
    rw [stored_append]
    refine (mem_definitions_snoc.1 hv).imp (ih hkeeps) fun hv => ?_
    cases hv
    exact mem_stored_singleton.2 ⟨_, _, rfl⟩

theorem Straight.readsStored (hslots : ∀ v ∈ slots.map Prod.snd, v ∈ ready) :
    ReadsStored table ready l := by
  induction h with
  | nil => trivial
  | load _ hsource ih =>
    rw [readsStored_append]
    refine ⟨ih ((Supply.keeps_temporary ..).trans hkeeps), fun v hv _ => ?_, trivial⟩
    cases List.mem_singleton.1 hv
    exact .inl (hslots _ hsource)
  | compute h _ _ huses ih =>
    have hkeeps := (Supply.keeps_temporary ..).trans hkeeps
    rw [readsStored_append]
    refine ⟨ih hkeeps, fun v hv hlasting => ?_, trivial⟩
    exact .inr (h.mem_stored hkeeps hfit hlasting (huses v hv))
  | call h huses ih =>
    rw [readsStored_append]
    refine ⟨ih hkeeps, fun v hv hlasting => ?_, trivial⟩
    exact .inr (h.mem_stored hkeeps hfit hlasting (huses v (Instruction.mem_uses.1 hv)))
  | store h _ hvalue ih =>
    rw [readsStored_append]
    refine ⟨ih hkeeps, fun v hv hlasting => ?_, trivial⟩
    have hmem := List.mem_singleton.1 (Instruction.mem_uses.1 hv)
    exact .inr (h.mem_stored hkeeps hfit hlasting (hvalue v hmem.symm))

end

end

def Cells.slots (frame : Cells) : Slots :=
  frame.map fun cell => (cell.symbol, cell.slot)

theorem Cells.forall_mem_slots {frame : Cells} (h : ∀ cell ∈ frame, cell.slot ∈ ready) :
    ∀ v ∈ frame.slots.map Prod.snd, v ∈ ready := by
  intro v hv
  obtain ⟨_, hmem, rfl⟩ := List.mem_map.1 hv
  obtain ⟨cell, hcell, rfl⟩ := List.mem_map.1 hmem
  exact h cell hcell

theorem Cells.lookup_slots {frame : Cells} {base : Scope} {slots : Slots} {name : String}
    {symbol : SymbolId} (houtside : ∀ name symbol, base.find? name ≠ some (.var symbol))
    (hslots : ∀ cell ∈ frame, slots.lookup cell.symbol = some cell.slot)
    (h : (frame.scope base).find? name = some (.var symbol)) :
    slots.lookup symbol = frame.slots.lookup symbol := by
  obtain ⟨cell, hcell, rfl⟩ := Cells.exists_cell houtside h
  cases hlookup : frame.slots.lookup cell.symbol with
  | none =>
    have hne := List.lookup_eq_none_iff.1 hlookup (cell.symbol, cell.slot)
      (List.mem_map_of_mem hcell)
    simp at hne
  | some slot =>
    obtain ⟨l, l', hsplit, -⟩ := List.lookup_eq_some_iff.1 hlookup
    have hmem : (cell.symbol, slot) ∈ frame.slots := by simp [hsplit]
    obtain ⟨other, hother, heq⟩ := List.mem_map.1 hmem
    obtain ⟨hsymbol, rfl⟩ := Prod.mk.inj heq
    rw [← hsymbol, hslots other hother]

end Flow

open Cinder.Flow

variable {table : SymbolTable} {exempt ready : Set Variable} {given given' : BlockId → Set Variable}

/-! ## Expressions -/

namespace Expr

variable {scope : Scope} {slots slots' : Slots}

mutual

theorem lower_congr (h : ∀ {name symbol}, scope.find? name = some (.var symbol) →
    slots.lookup symbol = slots'.lookup symbol) :
    ∀ {expr : Expr.Typed} {supply : Supply}, expr.Bound scope →
      expr.lower slots supply = expr.lower slots' supply
  | .literal .., _, _ => by
    rw [lower, lower]
  | .ident .., _, hbound => by
    rw [lower, lower]
    simp only [Slots.find, h hbound]
  | .call .., _, hbound => by
    rw [lower, lower]
    simp only [lowerAll_congr h hbound.2]
  | .binary .., _, hbound => by
    rw [lower, lower]
    simp only [lower_congr h hbound.1, lower_congr h hbound.2]
  | .negate _ _ operand, _, hbound => by
    have hbound : operand.Bound scope := hbound
    rw [lower, lower]
    simp only [lower_congr h hbound]
  | .cast _ _ operand _, _, hbound => by
    have hbound : operand.Bound scope := hbound
    rw [lower, lower]
    simp only [lower_congr h hbound]

theorem lowerAll_congr (h : ∀ {name symbol}, scope.find? name = some (.var symbol) →
    slots.lookup symbol = slots'.lookup symbol) :
    ∀ {exprs : List Expr.Typed} {supply : Supply}, BoundAll scope exprs →
      lowerAll slots supply exprs = lowerAll slots' supply exprs
  | [], _, _ => by
    rw [lowerAll, lowerAll]
  | _ :: _, _, hbound => by
    simp only [lowerAll, lower_congr h hbound.1, lowerAll_congr h hbound.2]

end

theorem lowerEffect_congr
    (h : ∀ {name symbol}, scope.find? name = some (.var symbol) →
    slots.lookup symbol = slots'.lookup symbol) {supply : Supply} (hbound : expr.Bound scope) :
    expr.lowerEffect slots supply = expr.lowerEffect slots' supply := by
  cases expr with
  | call => simp only [lowerEffect, lowerAll_congr h hbound.2]
  | _ => simp only [lowerEffect, lower_congr h hbound]

section

variable {frame : Cells} {base : Scope} {supply : Supply}
  (houtside : ∀ name symbol, base.find? name ≠ some (.var symbol))
  (hslots : ∀ cell ∈ frame, slots.lookup cell.symbol = some cell.slot)
  (hready : ∀ cell ∈ frame, cell.slot ∈ ready)

include houtside hslots hready

theorem readsStored_of_lower (hbound : expr.Bound (frame.scope base))
    (h : expr.lower slots supply = .ok code) (hkeeps : code.supply.symbols.Keeps table)
    (hfit : table.size ≤ UInt32.size) :
    ReadsStored table ready code.instructions ∧
      ∀ v, code.value = .var v → table.isTemporary v.symbol = false →
        v ∈ stored code.instructions := by
  rw [lower_congr (Cells.lookup_slots houtside hslots) hbound] at h
  have hs := straight_of_lower none h
  refine ⟨hs.straight.readsStored hkeeps hfit (Cells.forall_mem_slots hready), ?_⟩
  exact fun v hv hlasting => hs.straight.mem_stored hkeeps hfit hlasting (hs.value v hv)

theorem readsStored_of_lowerEffect {result : List Instruction × Supply}
    (hbound : expr.Bound (frame.scope base)) (h : expr.lowerEffect slots supply = .ok result)
    (hkeeps : result.2.symbols.Keeps table) (hfit : table.size ≤ UInt32.size) :
    ReadsStored table ready result.1 := by
  rw [lowerEffect_congr (Cells.lookup_slots houtside hslots) hbound] at h
  exact (straight_of_lowerEffect none h).readsStored hkeeps hfit (Cells.forall_mem_slots hready)

end

end Expr

/-! ## Drafts -/

namespace Flow

namespace Function.Provides

variable {f : Function} {id : BlockId}

/-- More instructions in a block, and links to blocks that are given no more than is there. -/
theorem modify {block : Block} {change : Block → Block} {l : List Instruction}
    (h : f.Provides table exempt given) (hb : f.block? id = some block)
    (hl : (change block).instructions = block.instructions ++ l)
    (hreads : ReadsStored table (exempt ∪ (given id ∪ stored block.instructions)) l)
    (hlinks : ∀ n ∈ (change block).successors,
      n ∈ block.successors ∨ given n ⊆ given id ∪ stored block.instructions) :
    (f.modifyBlock id change).Provides table exempt given := by
  refine ⟨?_, ?_, ?_⟩
  · rw [modifyBlock_entry]
    exact h.entry
  · intro j n v hedge hv hlasting
    obtain ⟨other, hother, hn⟩ := exists_block?_of_edge hedge
    rw [instructionsOf_of_block? hother]
    rw [block?_modifyBlock hb] at hother
    split at hother
    · rename_i hj
      subst hj
      cases hother
      rw [hl, stored_append, ← Set.union_assoc]
      rcases hlinks n hn with hold | hsub
      · have hstored := h.edges ((edge_of_block? hb).2 hold) hv hlasting
        rw [instructionsOf_of_block? hb] at hstored
        exact .inl hstored
      · exact .inl (hsub hv)
    · have hstored := h.edges ((edge_of_block? hother).2 hn) hv hlasting
      rwa [instructionsOf_of_block? hother] at hstored
  · intro j other hother
    rw [block?_modifyBlock hb] at hother
    split at hother
    · rename_i hj
      subst hj
      cases hother
      rw [hl, readsStored_append, Set.union_assoc]
      exact ⟨h.reads hb, hreads⟩
    · exact h.reads hother

/-- A new block may be given anything as long as nothing leads to it. -/
theorem addBlock (h : f.Provides table exempt given) (hfit : f.blocks.size < UInt32.size)
    (hentry : f.entry < f.blocks.size) (hlinked : ∀ {j n}, f.Edge j n → n < f.blocks.size)
    (hsame : ∀ j < f.blocks.size, given' j = given j) :
    f.addBlock.Provides table exempt given' := by
  refine ⟨?_, ?_, ?_⟩
  · exact (hsame _ hentry).trans h.entry
  · intro j n v hedge hv hlasting
    have hedge := edge_addBlock hfit hedge
    obtain ⟨block, hb, -⟩ := exists_block?_of_edge hedge
    have hj := lt_size_of_block? hb
    rw [hsame _ (hlinked hedge)] at hv
    rw [hsame _ hj, instructionsOf, block?_addBlock_of_lt hfit hj]
    exact h.edges hedge hv hlasting
  · intro j block hb
    rw [block?_addBlock hfit] at hb
    split at hb
    · cases hb
      exact readsStored_singleton rfl _
    · rw [hsame _ (lt_size_of_block? hb)]
      exact h.reads hb

end Function.Provides

namespace Draft

/-- The variables that are sure to have been stored in at the end of the current block. -/
def written (draft : Draft) (given : BlockId → Set Variable) : Set Variable :=
  given draft.current ∪ stored (draft.function.instructionsOf draft.current)

/-- A draft that provides what it reads; its exit is given the return slot at most. -/
structure Provides (table : SymbolTable) (exempt : Set Variable) (given : BlockId → Set Variable)
    (draft : Draft) : Prop where
  function : draft.function.Provides table exempt given
  exit : ∀ v ∈ given draft.function.exit, draft.returnSlot = some v

variable {draft draft' : Draft} {pending : List BlockId} {block : Block}

theorem written_of_block? (hb : draft.function.block? draft.current = some block) :
    draft.written given = given draft.current ∪ stored block.instructions := by
  rw [written, Function.instructionsOf_of_block? hb]

theorem written_extend (hb : draft.function.block? draft.current = some block)
    (l : List Instruction) (supply : Supply) :
    (draft.extend l supply).written given = draft.written given ∪ stored l := by
  have hb' : (draft.extend l supply).function.block? (draft.extend l supply).current =
      some { block with instructions := block.instructions ++ l } :=
    (Function.block?_modifyBlock hb _ _).trans (if_pos rfl)
  rw [written_of_block? hb, written_of_block? hb', stored_append, ← Set.union_assoc]
  rfl

theorem written_of_labelled {id : BlockId}
    (hb : draft.function.block? id = some (.labelled id)) :
    (draft.enter id).written given = given id := by
  have hb' : (draft.enter id).function.block? (draft.enter id).current = some (.labelled id) := hb
  have hlabel : stored (Block.labelled id).instructions = ∅ := by
    ext v
    simp [mem_stored, Block.labelled]
  rw [written_of_block? hb', hlabel, Set.union_empty]
  rfl

namespace Provides

variable (h : draft.Provides table exempt given)

include h

section

variable (hb : draft.function.block? draft.current = some block)

include hb

theorem extend {l : List Instruction}
    (hreads : ReadsStored table (exempt ∪ draft.written given) l) (supply : Supply) :
    (draft.extend l supply).Provides table exempt given := by
  rw [written_of_block? hb] at hreads
  refine ⟨h.function.modify hb rfl hreads fun n hn => .inl hn, ?_⟩
  rw [exit_extend]
  exact h.exit

theorem jump {target : BlockId} (htarget : given target ⊆ draft.written given) :
    (draft.jump target).Provides table exempt given := by
  rw [written_of_block? hb] at htarget
  refine ⟨?_, ?_⟩
  · rw [function_jump]
    refine h.function.modify hb rfl (readsStored_singleton rfl _) fun n hn => ?_
    rcases List.mem_cons.1 hn with rfl | hn
    · exact .inr htarget
    · exact .inl (List.mem_append_right _ hn)
  · rw [exit_jump]
    exact h.exit

theorem jumpIfOpen {target : BlockId}
    (htarget : draft.isTerminated = false → given target ⊆ draft.written given) :
    (draft.jumpIfOpen target).Provides table exempt given := by
  rw [Draft.jumpIfOpen]
  split
  · exact h
  · rename_i hopen
    exact h.jump hb (htarget (by simpa using hopen))

end

/-- Going on in a block that waits, from a block that has stored in what the target of its
jump is given. -/
theorem join {isOpen : Bool} {id after : BlockId}
    (hs : Stage.Sound ⟨id :: pending, draft, isOpen⟩) (hafter : after ∈ id :: pending)
    (htarget : draft.isTerminated = false → given after ⊆ draft.written given) :
    ((draft.jumpIfOpen after).enter id).Provides table exempt given ∧
      ((draft.jumpIfOpen after).enter id).written given = given id := by
  obtain ⟨block, hb, -⟩ := hs.shaped.shape
  have hjump := h.jumpIfOpen hb htarget
  refine ⟨⟨hjump.function, hjump.exit⟩, written_of_labelled ?_⟩
  have hwaiting := (hs.jumpIfOpen (List.mem_cons_of_mem _ hafter)).shaped.waiting
  exact hwaiting id (List.mem_cons_of_mem _ List.mem_cons_self)

theorem addBlock {isOpen : Bool} (hs : Stage.Sound ⟨pending, draft, isOpen⟩)
    (hfit : draft.function.blocks.size < UInt32.size)
    (hsame : ∀ j < draft.function.blocks.size, given' j = given j) :
    Provides table exempt given' { draft with function := draft.function.addBlock } ∧
      written { draft with function := draft.function.addBlock } given' = draft.written given := by
  have hcurrent : draft.current < draft.function.blocks.size := hs.shaped.current_lt
  refine ⟨⟨h.function.addBlock hfit hs.shaped.entry ?_ hsame, ?_⟩, ?_⟩
  · intro j n hedge
    obtain ⟨block, hb, hn⟩ := Function.exists_block?_of_edge hedge
    exact hs.shaped.linked hb hn
  · intro v hv
    change v ∈ given' draft.function.exit at hv
    rw [hsame _ (hs.shaped.lt_size List.mem_cons_self)] at hv
    exact h.exit v hv
  · rw [written, written, Function.instructionsOf, Function.block?_addBlock_of_lt hfit hcurrent,
      hsame _ hcurrent]
    rfl

theorem split {condition : Operand} {taken otherwise : BlockId}
    (hb : draft.function.block? draft.current = some block)
    (hcondition : ∀ v, condition = .var v → table.isTemporary v.symbol = false →
      v ∈ draft.written given)
    (htaken : given taken ⊆ draft.written given)
    (hotherwise : given otherwise ⊆ draft.written given) :
    (draft.split condition taken otherwise).Provides table exempt given := by
  rw [written_of_block? hb] at hcondition htaken hotherwise
  refine ⟨?_, ?_⟩
  · rw [function_split]
    refine h.function.modify hb rfl ⟨fun v hv hlasting => .inr ?_, trivial⟩ fun n hn => .inr ?_
    · exact hcondition v (List.mem_singleton.1 (Instruction.mem_uses.1 hv)).symm hlasting
    · rcases List.mem_cons.1 hn with rfl | hn
      · exact hotherwise
      · cases List.mem_singleton.1 hn
        exact htaken
  · rw [function_split, Function.modifyBlock_exit]
    exact h.exit

/-- The two blocks of a fork are given all that is there.  What the block behind them is
given is open. -/
theorem fork {condition : Operand} (hs : Stage.Sound ⟨pending, draft, true⟩)
    (hfit : draft.function.blocks.size + 3 ≤ UInt32.size)
    (hcondition : ∀ v, condition = .var v → table.isTemporary v.symbol = false →
      v ∈ draft.written given) (behind : Set Variable) :
    ∃ given', (draft.fork condition).Provides table exempt given' ∧
      (∀ j < draft.function.blocks.size, given' j = given j) ∧
      (draft.fork condition).written given' = draft.written given ∧
      given' draft.forkTargets.2.1 = draft.written given ∧
        given' draft.forkTargets.2.2 = behind := by
  obtain ⟨hfit₁, hfit₂, hfit₃⟩ := addBlocks_lt hfit
  let given' : BlockId → Set Variable := fun j =>
    if j < draft.function.blocks.size then given j
    else if j = draft.function.blocks.size + 2 then behind else draft.written given
  have hsame : ∀ j < draft.function.blocks.size, given' j = given j := fun j hj => if_pos hj
  have htaken : given' draft.function.blocks.size = draft.written given := by simp [given']
  have hotherwise : given' (draft.function.blocks.size + 1) = draft.written given := by
    simp [given']
  have hbehind : given' (draft.function.blocks.size + 2) = behind := by simp [given']
  have hs₁ := hs.addBlock hfit₁
  have hs₂ := hs₁.addBlock hfit₂
  have hs₃ := hs₂.addBlock hfit₃
  obtain ⟨h₁, hwritten₁⟩ := h.addBlock hs hfit₁ hsame
  obtain ⟨h₂, hwritten₂⟩ := h₁.addBlock hs₁ hfit₂ fun _ _ => rfl
  obtain ⟨h₃, hwritten₃⟩ := h₂.addBlock hs₂ hfit₃ fun _ _ => rfl
  have hwritten : written { draft with function := draft.function.addBlock.addBlock.addBlock }
      given' = draft.written given := (hwritten₃.trans hwritten₂).trans hwritten₁
  obtain ⟨block, hb, -⟩ := hs₃.shaped.shape
  rw [forkTargets_eq hfit]
  refine ⟨given', ?_, hsame, ?_, hotherwise, hbehind⟩
  · rw [Draft.fork, forkTargets_eq hfit]
    have hsplit : Provides table exempt given'
        (Draft.split { draft with function := draft.function.addBlock.addBlock.addBlock } condition
          draft.function.blocks.size (draft.function.blocks.size + 1)) := by
      refine h₃.split hb ?_ ?_ ?_
      · exact fun v hv hlasting => hwritten.symm ▸ hcondition v hv hlasting
      · exact (htaken.trans hwritten.symm).subset
      · exact (hotherwise.trans hwritten.symm).subset
    exact ⟨hsplit.function, hsplit.exit⟩
  · rw [Draft.fork, forkTargets_eq hfit, written_of_labelled, htaken]
    have hwaiting : draft.function.blocks.size ∈
        draft.function.exit :: draft.function.addBlock.addBlock.blocks.size ::
          draft.function.addBlock.blocks.size :: draft.function.blocks.size :: pending := by simp
    rw [function_split, Function.block?_modifyBlock hb, if_neg, hs₃.shaped.waiting _ hwaiting]
    exact Ne.symm (Nat.ne_of_lt hs.shaped.current_lt)

theorem save (hb : draft.function.block? draft.current = some block)
    (hreads : ReadsStored table (exempt ∪ draft.written given) code.instructions)
    (hvalue : ∀ v, code.value = .var v → table.isTemporary v.symbol = false →
      v ∈ stored code.instructions) (slot : Variable) (ty : Ty) :
    (draft.save code slot ty).Provides table exempt given ∧
      draft.written given ⊆ (draft.save code slot ty).written given ∧
      slot ∈ (draft.save code slot ty).written given := by
  rw [Draft.save, written_extend hb]
  refine ⟨h.extend hb ?_ _, Set.subset_union_left, .inr ⟨_, _, List.mem_concat_self⟩⟩
  rw [readsStored_append]
  refine ⟨hreads, fun v hv hlasting => .inr ?_, trivial⟩
  exact hvalue v (List.mem_singleton.1 (Instruction.mem_uses.1 hv)).symm hlasting

end Provides

structure Advances (table : SymbolTable) (exempt : Set Variable) (given : BlockId → Set Variable)
    (draft : Draft) (given' : BlockId → Set Variable) (draft' : Draft) : Prop where
  provides : draft'.Provides table exempt given'
  size_le : draft.function.blocks.size ≤ draft'.function.blocks.size
  same : ∀ j < draft.function.blocks.size, given' j = given j
  written : draft'.isTerminated = false → draft.written given ⊆ draft'.written given'

theorem Advances.trans {given'' : BlockId → Set Variable} {draft'' : Draft}
    (h : Advances table exempt given draft given' draft')
    (h' : Advances table exempt given' draft' given'' draft'')
    (hopen : draft'.isTerminated = false) : Advances table exempt given draft given'' draft'' where
  provides := h'.provides
  size_le := h.size_le.trans h'.size_le
  same j hj := (h'.same j (Nat.lt_of_lt_of_le hj h.size_le)).trans (h.same j hj)
  written hopen' := (h.written hopen).trans (h'.written hopen')

theorem Advances.forall_slot (h : Advances table exempt given draft given' draft')
    (hopen : draft'.isTerminated = false) {frame : Cells}
    (hready : ∀ cell ∈ frame, cell.slot ∈ exempt ∪ draft.written given) :
    ∀ cell ∈ frame, cell.slot ∈ exempt ∪ draft'.written given' :=
  fun cell hcell => (hready cell hcell).imp_right fun hv => h.written hopen hv

end Draft

end Flow

/-! ## Statements -/

section

variable (table : SymbolTable) (exempt : Set Variable) (table₀ : SymbolTable)
  (returnType : Option Ty) (frame : Cells) (next : Nat)

/-- Wherever it is added to a draft, some code reads slots that have been stored in, and in
the end the variables in sight have been stored in, as far as they have to.  So has the
return slot, if the code returns on every path. -/
def Flow.Prepares (lower : Draft → Except Fault Draft) (frame' : Cells) (returns : Bool) : Prop :=
  ∀ pending draft draft' given,
    frame.Laid table₀ returnType next ⟨pending, draft, true⟩ → lower draft = .ok draft' →
      (draft'.stage pending).Fits → draft'.supply.symbols.Keeps table →
      draft.Provides table exempt given →
      (∀ cell ∈ frame, cell.slot ∈ exempt ∪ draft.written given) →
        ∃ given', Draft.Advances table exempt given draft given' draft' ∧
          (draft'.isTerminated = false →
            (∀ cell ∈ frame', cell.slot ∈ exempt ∪ draft'.written given') ∧
              (returns = true → ∀ slot, draft.returnSlot = some slot →
                slot ∈ draft'.written given'))

end

section

variable {table₀ : SymbolTable} {returnType : Option Ty} {frame : Cells} {next : Nat} {base : Scope}
  (hfit : table.size ≤ UInt32.size) (houtside : ∀ name symbol, base.find? name ≠ some (.var symbol))

include hfit houtside

namespace Statement

theorem prepares_declare {decl : Local SymbolId (Option Ty)}
    (hbound : (Statement.declare decl).Bound (frame.scope base) next)
    (hlocals : table₀.Locals next 1)
    (hexempt : decl.initializer = none → { symbol := decl.symbol } ∈ exempt) :
    Prepares table exempt table₀ returnType frame next (Statement.declare decl).lower
      ((Statement.declare decl).frameAfter frame) false := by
  intro pending draft draft' given hlaid hlower hfits hkeeps hprovides hready
  obtain ⟨hinit, rfl⟩ := hbound
  obtain ⟨name, ty, hget⟩ := hlocals decl.symbol (Nat.le_refl _) (Nat.lt_succ_self _)
  have hget := hlaid.keeps.get hget
  obtain ⟨ty', hty, hlower⟩ := exists_of_lower_declare hlower
  obtain ⟨name', origin, hget'⟩ := SymbolTable.type?_eq_some.1 (SymbolTable.typeOf_eq_ok.1 hty)
  cases hget.symm.trans hget'
  have hdeclare : Stage.Step decl.symbol ⟨pending, draft, true⟩ _ := .declare (Nat.le_refl _) hget
  obtain ⟨block, hb, -⟩ := hlaid.sound.shaped.shape
  obtain ⟨block', hb', -⟩ := (hlaid.sound.declare hget).shaped.shape
  let declared := (draft.emit [.alloca { symbol := decl.symbol } ty]).bindSlot decl.symbol
    { symbol := decl.symbol }
  have hdeclared : declared.Provides table exempt given := by
    have hextend := hprovides.extend hb (l := [.alloca { symbol := decl.symbol } ty])
      (readsStored_singleton rfl _) draft.supply
    exact ⟨hextend.function, hextend.exit⟩
  have hwritten : draft.written given ⊆ declared.written given := by
    change draft.written given ⊆ (draft.extend [.alloca _ ty] draft.supply).written given
    rw [Draft.written_extend hb]
    exact Set.subset_union_left
  have hready : ∀ cell ∈ frame, cell.slot ∈ exempt ∪ declared.written given :=
    fun cell hcell => (hready cell hcell).imp_right fun hv => hwritten hv
  obtain ⟨hinitializer, rfl⟩ | ⟨initializer, code, hinitializer, hcode, rfl⟩ := hlower
  · refine ⟨given, ⟨hdeclared, ?_, fun _ _ => rfl, fun _ => hwritten⟩,
      fun _ => ⟨?_, fun hreturns => absurd hreturns Bool.false_ne_true⟩⟩
    · simp [Draft.bindSlot, Draft.emit]
    · exact List.forall_mem_cons.2 ⟨.inl (hexempt hinitializer), hready⟩
  · rw [hinitializer] at hinit
    have hslots : ∀ cell ∈ frame, declared.slots.lookup cell.symbol = some cell.slot :=
      fun cell hcell => (hdeclare.lookup (hlaid.symbols cell hcell)).trans (hlaid.slots cell hcell)
    obtain ⟨hreads, hvalue⟩ := Expr.readsStored_of_lower houtside hslots hready (hinit _ rfl) hcode
      hkeeps hfit
    obtain ⟨hsaved, hsub, hslot⟩ := hdeclared.save hb' hreads hvalue { symbol := decl.symbol } ty
    refine ⟨given, ⟨hsaved, ?_, fun _ _ => rfl, fun _ => hwritten.trans hsub⟩,
      fun _ => ⟨?_, fun hreturns => absurd hreturns Bool.false_ne_true⟩⟩
    · simp [Draft.save, Draft.extend, Draft.bindSlot, Draft.emit]
    · refine List.forall_mem_cons.2 ⟨.inr hslot, fun cell hcell => ?_⟩
      exact (hready cell hcell).imp_right fun hv => hsub hv

variable {span : Span} {condition : Expr.Typed}

theorem prepares_assign {target : Ident} {symbol : SymbolId} {value : Expr.Typed}
    (hbound : (Statement.assign span target symbol value).Bound (frame.scope base) next) :
    Prepares table exempt table₀ returnType frame next
      (Statement.assign span target symbol value).lower frame false := by
  intro pending draft draft' given hlaid hlower hfits hkeeps hprovides hready
  obtain ⟨slot, ty, code, hslot, hcode, rfl⟩ := exists_of_lower_assign hlower
  obtain ⟨block, hb, -⟩ := hlaid.sound.shaped.shape
  obtain ⟨hreads, hvalue⟩ := Expr.readsStored_of_lower houtside hlaid.slots hready hbound.1 hcode
    hkeeps hfit
  obtain ⟨hsaved, hsub, -⟩ := hprovides.save hb hreads hvalue slot ty
  have hadvances : Draft.Advances table exempt given draft given (draft.save code slot ty) :=
    ⟨hsaved, by simp [Draft.save, Draft.extend, Draft.emit], fun _ _ => rfl, fun _ => hsub⟩
  exact ⟨given, hadvances, fun hopen => ⟨hadvances.forall_slot hopen hready,
    fun hreturns => absurd hreturns Bool.false_ne_true⟩⟩

theorem prepares_expr {value : Expr.Typed}
    (hbound : (Statement.expr span value).Bound (frame.scope base) next) :
    Prepares table exempt table₀ returnType frame next (Statement.expr span value).lower frame
      false := by
  intro pending draft draft' given hlaid hlower hfits hkeeps hprovides hready
  beta_reduce at hlower
  rw [lower] at hlower
  obtain ⟨⟨instructions, supply⟩, heffect, hlower⟩ := bind_eq_ok.1 hlower
  cases hlower
  obtain ⟨block, hb, -⟩ := hlaid.sound.shaped.shape
  have hreads := Expr.readsStored_of_lowerEffect houtside hlaid.slots hready hbound heffect hkeeps
    hfit
  have hsub : draft.written given ⊆ (draft.extend instructions supply).written given := by
    rw [Draft.written_extend hb]
    exact Set.subset_union_left
  have hadvances : Draft.Advances table exempt given draft given
      (draft.extend instructions supply) :=
    ⟨hprovides.extend hb hreads supply, by simp [Draft.extend, Draft.emit], fun _ _ => rfl,
      fun _ => hsub⟩
  exact ⟨given, hadvances, fun hopen => ⟨hadvances.forall_slot hopen hready,
    fun hreturns => absurd hreturns Bool.false_ne_true⟩⟩

/-- A `return` ends its block, with a value in the return slot if there is one. -/
theorem prepares_ret {value : Option Expr.Typed} {frame' : Cells}
    (hbound : (Statement.ret span value).Bound (frame.scope base) next)
    (htype : (Statement.ret span value).WellTyped table₀ returnType)
    (hlocals : table₀.Locals next (Statement.ret span value).declarations) :
    Prepares table exempt table₀ returnType frame next (Statement.ret span value).lower frame'
      true := by
  intro pending draft draft' given hlaid hlower hfits hkeeps hprovides hready
  obtain ⟨block, hb, -⟩ := hlaid.sound.shaped.shape
  have hsteps := Statement.steps_of_lower hlaid.keeps pending hbound hlocals hlower
  have hclosed : draft'.isTerminated = true :=
    (hsteps.sound ⟨hfits.symbols, hfits.blocks⟩ hlaid.sound).isTerminated
  have hopen : ∀ {P : Prop}, draft'.isTerminated = false → P := by
    intro P hopen
    rw [hclosed] at hopen
    cases hopen
  suffices h : draft'.Provides table exempt given ∧
      draft.function.blocks.size ≤ draft'.function.blocks.size from
    ⟨given, ⟨h.1, h.2, fun _ _ => rfl, hopen⟩, hopen⟩
  beta_reduce at hlower
  cases value with
  | none =>
    rw [lower] at hlower
    cases hlower
    have hslot : draft.returnSlot = none := hlaid.returns htype
    refine ⟨hprovides.jump hb fun v hv => ?_, by simp [Draft.function_jump]⟩
    have hv := hprovides.exit v hv
    rw [hslot] at hv
    cases hv
  | some value =>
    obtain ⟨slot, ty, code, hslot, hcode, rfl⟩ := exists_of_lower_ret hlower
    obtain ⟨hreads, hvalue⟩ := Expr.readsStored_of_lower houtside hlaid.slots hready
      (hbound _ rfl) hcode hkeeps hfit
    obtain ⟨hsaved, -, hwritten⟩ := hprovides.save hb hreads hvalue slot ty
    have hb' : (draft.save code slot ty).function.block? (draft.save code slot ty).current = _ :=
      (Function.block?_modifyBlock hb _ _).trans (if_pos rfl)
    refine ⟨hsaved.jump hb' fun v hv => ?_, ?_⟩
    · cases hslot.symm.trans (hprovides.exit v hv)
      exact hwritten
    · simp [Draft.function_jump, Draft.save, Draft.extend, Draft.emit]

/-- Behind the first block of a conditional statement.  The other block is given what was
there at the fork, and the block behind them some more. -/
theorem exists_given_of_fork {pending : List BlockId} {draft forked draft₁ : Draft}
    {lower : Draft → Except Fault Draft} {returns : Bool} {next' : Nat}
    (hbound : condition.Bound (frame.scope base))
    (hlaid : frame.Laid table₀ returnType next ⟨pending, draft, true⟩)
    (hcode : condition.lower draft.slots draft.supply = .ok code)
    (hextend : draft.extend code.instructions code.supply = forked)
    (hprovides : draft.Provides table exempt given)
    (hready : ∀ cell ∈ frame, cell.slot ∈ exempt ∪ draft.written given)
    (hprepares : Prepares table exempt table₀ returnType frame next lower frame returns)
    (hforked : Stage.Forked table₀ returnType frame next next' pending draft forked code.value
      draft₁) (hlower : lower (forked.fork code.value) = .ok draft₁)
    (hkeeps₁ : draft₁.supply.symbols.Keeps table) (extra : Set Variable) :
    ∃ given₁, Draft.Advances table exempt given draft given₁ draft₁ ∧
      draft.written given ⊆ given₁ forked.forkTargets.2.1 ∧
      given₁ forked.forkTargets.2.2 = given₁ forked.forkTargets.2.1 ∪ extra ∧
      (draft₁.isTerminated = false →
        given₁ forked.forkTargets.2.1 ⊆ draft₁.written given₁ ∧
          (returns = true → ∀ slot, draft.returnSlot = some slot →
            slot ∈ draft₁.written given₁)) := by
  obtain ⟨block, hb, -⟩ := hlaid.sound.shaped.shape
  have hs := Expr.straight_of_lower draft.returnSlot hcode
  have hkeeps : code.supply.symbols.Keeps table := by
    have hkeeps₀ : (forked.fork code.value).supply.symbols.Keeps table :=
      hforked.steps.keeps.trans hkeeps₁
    rwa [← hextend] at hkeeps₀
  have hsize : forked.function.blocks.size + 3 ≤ UInt32.size :=
    Draft.size_fork forked code.value ▸ hforked.fits.blocks
  obtain ⟨hreads, hvalue⟩ := Expr.readsStored_of_lower houtside hlaid.slots hready hbound hcode
    hkeeps hfit
  have hextended := hprovides.extend hb hreads code.supply
  have hwritten : _ = draft.written given ∪ _ :=
    Draft.written_extend hb code.instructions code.supply
  have hsound := hlaid.sound.extend hs.straight (Nat.le_trans hkeeps.size_le hfit)
  rw [hextend] at hextended hwritten hsound
  have hold : forked.function.blocks.size = draft.function.blocks.size := by
    rw [← hextend]
    exact Function.modifyBlock_size ..
  obtain ⟨given', hfork, hsame, htaken, hotherwise, hbehind⟩ := hextended.fork hsound hsize
    (fun v hv hlasting => by rw [hwritten]; exact .inr (hvalue v hv hlasting))
    (forked.written given ∪ extra)
  have hready' : ∀ cell ∈ frame, cell.slot ∈ exempt ∪ (forked.fork code.value).written given' := by
    rw [htaken, hwritten]
    exact fun cell hcell => (hready cell hcell).imp_right .inl
  obtain ⟨given₁, hadvances, hend⟩ := hprepares _ _ _ _ hforked.laid hlower hforked.fits_ended
    hkeeps₁ hfork hready'
  have hsize₁ := Draft.size_fork forked code.value
  rw [Draft.forkTargets_eq hsize] at hotherwise hbehind ⊢
  have hotherwise₁ : given₁ (forked.function.blocks.size + 1) = forked.written given :=
    (hadvances.same _ (by omega)).trans hotherwise
  have hbehind₁ : given₁ (forked.function.blocks.size + 2) = forked.written given ∪ extra :=
    (hadvances.same _ (by omega)).trans hbehind
  refine ⟨given₁, ⟨hadvances.provides, ?_, ?_, ?_⟩, ?_, ?_, ?_⟩
  · have hle := hadvances.size_le
    omega
  · intro j hj
    rw [hadvances.same j (by omega), hsame j (by omega)]
  · intro hopen
    refine Set.Subset.trans ?_ (hadvances.written hopen)
    rw [htaken, hwritten]
    exact Set.subset_union_left
  · rw [hotherwise₁, hwritten]
    exact Set.subset_union_left
  · rw [hbehind₁, hotherwise₁]
  · intro hopen
    rw [hotherwise₁, ← htaken]
    refine ⟨hadvances.written hopen, fun hreturns slot hslot => ?_⟩
    exact (hend hopen).2 hreturns slot (hforked.fork.returnSlot.trans hslot)

theorem prepares_ifElse {positive negative : Block.Typed}
    (hbound : (Statement.ifElse span condition positive negative).Bound (frame.scope base) next)
    (hlocals : table₀.Locals next (positive.declarations + negative.declarations))
    (hpositive : Prepares table exempt table₀ returnType frame next positive.lower frame
      positive.returns)
    (hnegative : Prepares table exempt table₀ returnType frame (next + positive.declarations)
      negative.lower frame negative.returns) :
    Prepares table exempt table₀ returnType frame next
      (Statement.ifElse span condition positive negative).lower frame
      (positive.returns && negative.returns) := by
  intro pending draft draft' given hlaid hlower hfits hkeeps hprovides hready
  obtain ⟨code, draft₁, draft₂, hcode, hblock, hblock', rfl, hforked, hsteps, hfits₃, hjoin⟩ :=
    exists_forked hlaid hbound hlocals hlower hfits
  let forked := draft.extend code.instructions code.supply
  let after := forked.forkTargets.2.2
  have hsound₃ := hsteps.sound hfits₃ hforked.laid_other.sound
  have hkeeps₃ := hjoin.keeps.trans hkeeps
  have hkeeps₁ := (hforked.join.keeps.trans hsteps.keeps).trans hkeeps₃
  have hreturn := (hforked.join.returnSlot.trans hforked.steps.returnSlot).trans
    hforked.fork.returnSlot
  -- if both blocks return, nothing gets to the block behind them
  obtain ⟨given₁, hadvances, hwritten, hbehind, hend⟩ := exists_given_of_fork hfit houtside hbound.1
    hlaid hcode rfl hprovides hready hpositive hforked hblock hkeeps₁
    {v | (positive.returns && negative.returns) = true ∧ draft.returnSlot = some v}
  obtain ⟨hprovides₂, hwritten₂⟩ := hadvances.provides.join hforked.sound_ended
      (List.mem_cons_of_mem _ List.mem_cons_self) fun hopen => by
    rw [hbehind]
    refine Set.union_subset (hend hopen).1 fun v hv => ?_
    exact (hend hopen).2 (Bool.and_eq_true_iff.1 hv.1).1 v hv.2
  have hready₂ : ∀ cell ∈ frame, cell.slot ∈ exempt ∪
      ((draft₁.jumpIfOpen after).enter forked.forkTargets.2.1).written given₁ := by
    rw [hwritten₂]
    exact fun cell hcell => (hready cell hcell).imp_right fun hv => hwritten hv
  obtain ⟨given₂, hadvances₂, hend₂⟩ := hnegative _ _ _ _ hforked.laid_other hblock' hfits₃ hkeeps₃
    hprovides₂ hready₂
  have hafter : given₂ after = given₁ after :=
    hadvances₂.same _ (hforked.laid_other.sound.shaped.lt_size
      (List.mem_cons_of_mem _ List.mem_cons_self))
  obtain ⟨hprovides₄, hwritten₄⟩ := hadvances₂.provides.join hsound₃ List.mem_cons_self
    fun hopen => by
      rw [hafter, hbehind, ← hwritten₂]
      refine Set.union_subset (hadvances₂.written hopen) fun v hv => ?_
      exact (hend₂ hopen).2 (Bool.and_eq_true_iff.1 hv.1).2 v (hreturn.trans hv.2)
  rw [hafter, hbehind] at hwritten₄
  have hsub : draft.written given ⊆ _ := (hwritten.trans Set.subset_union_left).trans
    hwritten₄.symm.subset
  have hsize₂ := hadvances₂.size_le
  simp only [Draft.enter, Draft.size_jumpIfOpen] at hsize₂
  have hadvances₄ : Draft.Advances table exempt given draft given₂
      ((draft₂.jumpIfOpen after).enter after) := by
    refine ⟨hprovides₄, ?_, fun j hj => ?_, fun _ => hsub⟩
    · simpa [Draft.enter] using Nat.le_trans hadvances.size_le hsize₂
    · rw [hadvances₂.same j, hadvances.same j hj]
      simpa [Draft.enter] using Nat.lt_of_lt_of_le hj hadvances.size_le
  refine ⟨given₂, hadvances₄, fun hopen => ⟨hadvances₄.forall_slot hopen hready, ?_⟩⟩
  intro hreturns slot hslot
  rw [hwritten₄]
  exact .inr ⟨hreturns, hslot⟩

omit hfit houtside in
theorem prepares_nil : Prepares table exempt table₀ returnType frame next
    (Statement.lowerAll · []) frame false := by
  intro pending draft draft' given hlaid hlower hfits hkeeps hprovides hready
  cases hlower
  exact ⟨given, ⟨hprovides, Nat.le_refl _, fun _ _ => rfl, fun _ => subset_rfl⟩,
    fun _ => ⟨hready, fun hreturns => absurd hreturns Bool.false_ne_true⟩⟩

omit hfit houtside in
theorem prepares_cons {statement : Statement.Typed}
    {rest : List Statement.Typed} {scope : Scope}
    (hbound : Statement.BoundAll scope next (statement :: rest))
    (hlocals : table₀.Locals next (statement.declarations + Statement.declarationsAll rest))
    (hfirst : Prepares table exempt table₀ returnType frame next statement.lower
      (statement.frameAfter frame) statement.returns)
    (hrest : Prepares table exempt table₀ returnType (statement.frameAfter frame)
      (next + statement.declarations) (Statement.lowerAll · rest) (statement.frameAfter frame)
      (Statement.anyReturns rest)) :
    Prepares table exempt table₀ returnType frame next (Statement.lowerAll · (statement :: rest))
      frame (Statement.anyReturns (statement :: rest)) := by
  intro pending draft draft' given hlaid hlower hfits hkeeps hprovides hready
  beta_reduce at hlower
  cases hret : statement.isReturn with
  | true =>
    cases statement with
    | ret span value =>
      rw [Statement.lowerAll] at hlower
      obtain ⟨given', hadvances, hend⟩ := hfirst _ _ _ _ hlaid hlower hfits hkeeps hprovides
        hready
      exact ⟨given', hadvances, fun hopen => ⟨hadvances.forall_slot hopen hready,
        fun _ => (hend hopen).2 rfl⟩⟩
    | _ => cases hret
  | false =>
    obtain ⟨draft₁, hlower₁, hlower, hsteps₁, hlaid₁, hsteps₂⟩ :=
      exists_of_lowerAll_cons hlaid hbound hlocals hret hlower hfits
    have hfits₁ := Stage.Steps.fits hsteps₂ hfits
    have hopen₁ : draft₁.isTerminated = false := hlaid₁.sound.isTerminated
    obtain ⟨given₁, hadvances₁, hend₁⟩ := hfirst _ _ _ _ hlaid hlower₁
      ⟨hfits₁.symbols, hfits₁.blocks⟩ (hsteps₂.keeps.trans hkeeps) hprovides hready
    obtain ⟨hready₁, hreturns₁⟩ := hend₁ hopen₁
    obtain ⟨given₂, hadvances₂, hend₂⟩ := hrest _ _ _ _ hlaid₁ hlower hfits hkeeps
      hadvances₁.provides hready₁
    have hadvances := hadvances₁.trans hadvances₂ hopen₁
    refine ⟨given₂, hadvances, fun hopen => ⟨hadvances.forall_slot hopen hready, ?_⟩⟩
    intro hreturns slot hslot
    rcases Bool.or_eq_true_iff.1 hreturns with hreturns | hreturns
    · exact hadvances₂.written hopen (hreturns₁ hreturns slot hslot)
    · exact (hend₂ hopen).2 hreturns slot (hsteps₁.returnSlot.trans hslot)

end Statement

end

mutual

def Statement.locals {σ τ : Type} : Statement σ τ → List (Local σ τ)
  | .declare decl => [decl]
  | .ifThen _ _ positive => positive.locals
  | .ifElse _ _ positive negative => positive.locals ++ negative.locals
  | _ => []

def Block.locals {σ τ : Type} : Block σ τ → List (Local σ τ)
  | .mk _ statements => Statement.localsAll statements

def Statement.localsAll {σ τ : Type} : List (Statement σ τ) → List (Local σ τ)
  | [] => []
  | statement :: rest => statement.locals ++ Statement.localsAll rest

end

/-- The declarations that give a variable of the table no value. -/
def Flow.Unset (table₀ : SymbolTable) (locals : List (Local SymbolId (Option Ty))) : Set Variable :=
  {v | ∃ decl ∈ locals, decl.initializer = none ∧ v = { symbol := decl.symbol } ∧
    ∃ name ty, table₀.get? decl.symbol = some ⟨name, .var (some ty) .user⟩}

section

variable {table₀ : SymbolTable} {returnType : Option Ty} {base : Scope}
  {l l' : List (Local SymbolId (Option Ty))}

theorem Flow.Unset.mono_left (h : Unset table₀ (l ++ l') ⊆ exempt) : Unset table₀ l ⊆ exempt := by
  rintro v ⟨decl, hmem, hv⟩
  exact h ⟨decl, List.mem_append_left _ hmem, hv⟩

theorem Flow.Unset.mono_right (h : Unset table₀ (l ++ l') ⊆ exempt) : Unset table₀ l' ⊆ exempt := by
  rintro v ⟨decl, hmem, hv⟩
  exact h ⟨decl, List.mem_append_right _ hmem, hv⟩

mutual

/-- Lowering reads no slot that it has not stored in, but for variables that are declared
without a value. -/
theorem Statement.prepares (hfit : table.size ≤ UInt32.size)
    (houtside : ∀ name symbol, base.find? name ≠ some (.var symbol)) :
    ∀ {statement : Statement.Typed} {frame : Cells} {next : Nat},
      statement.Bound (frame.scope base) next → statement.WellTyped table₀ returnType →
      table₀.Locals next statement.declarations → Unset table₀ statement.locals ⊆ exempt →
        Prepares table exempt table₀ returnType frame next statement.lower
          (statement.frameAfter frame) statement.returns
  | .declare decl, frame, next, hbound, _, hlocals, hexempt => by
    refine Statement.prepares_declare hfit houtside hbound hlocals fun hinit => hexempt ?_
    refine ⟨decl, List.mem_singleton_self _, hinit, rfl, ?_⟩
    rw [hbound.2]
    exact hlocals next (Nat.le_refl _) (Nat.lt_succ_self _)
  | .assign .., frame, next, hbound, _, _, _ =>
    Statement.prepares_assign hfit houtside hbound
  | .ret .., frame, next, hbound, htype, hlocals, _ =>
    Statement.prepares_ret hfit houtside hbound htype hlocals
  | .expr .., frame, next, hbound, _, _, _ =>
    Statement.prepares_expr hfit houtside hbound
  | .ifThen span _ positive, frame, next, hbound, htype, hlocals, hexempt => by
    have hpositive := Block.prepares hfit houtside hbound.2 htype.2 hlocals hexempt
    have hboth : Prepares table exempt table₀ returnType frame next
        (Statement.ifElse span _ positive (.mk span [])).lower frame (positive.returns && false) :=
      Statement.prepares_ifElse hfit houtside ⟨hbound.1, hbound.2, trivial⟩ hlocals hpositive
        Statement.prepares_nil
    simp only [← Statement.lower_ifThen_eq, Bool.and_false] at hboth
    exact hboth
  | .ifElse _ _ positive negative, frame, next, hbound, htype, hlocals, hexempt => by
    have hlocals : table₀.Locals next (positive.declarations + negative.declarations) := hlocals
    have hpositive := Block.prepares hfit houtside hbound.2.1 htype.2.1
      (hlocals.mono (Nat.le_refl _) (by omega)) (Unset.mono_left hexempt)
    have hnegative := Block.prepares hfit houtside hbound.2.2 htype.2.2
      (hlocals.mono (by omega) (by omega)) (Unset.mono_right hexempt)
    exact Statement.prepares_ifElse hfit houtside hbound hlocals hpositive hnegative

theorem Block.prepares (hfit : table.size ≤ UInt32.size)
    (houtside : ∀ name symbol, base.find? name ≠ some (.var symbol)) :
    ∀ {block : Block.Typed} {frame : Cells} {next : Nat},
      block.Bound (frame.scope base) next → block.WellTyped table₀ returnType →
      table₀.Locals next block.declarations → Unset table₀ block.locals ⊆ exempt →
        Prepares table exempt table₀ returnType frame next block.lower frame block.returns
  | .mk .., _, _, hbound, htype, hlocals, hexempt =>
    Statement.allPrepares hfit houtside hbound htype hlocals hexempt

theorem Statement.allPrepares (hfit : table.size ≤ UInt32.size)
    (houtside : ∀ name symbol, base.find? name ≠ some (.var symbol)) :
    ∀ {statements : List Statement.Typed} {frame : Cells} {next : Nat},
      Statement.BoundAll (frame.scope base) next statements →
      Statement.AllWellTyped table₀ returnType statements →
      table₀.Locals next (Statement.declarationsAll statements) →
      Unset table₀ (Statement.localsAll statements) ⊆ exempt →
        Prepares table exempt table₀ returnType frame next (Statement.lowerAll · statements) frame
          (Statement.anyReturns statements)
  | [], _, _, _, _, _, _ => Statement.prepares_nil
  | statement :: rest, frame, next, hbound, htype, hlocals, hexempt => by
    have hlocals : table₀.Locals next
      (statement.declarations + Statement.declarationsAll rest) := hlocals
    have hfirst := Statement.prepares hfit houtside hbound.1 htype.1
      (hlocals.mono (Nat.le_refl _) (by omega)) (Unset.mono_left hexempt)
    have hscope := hbound.2
    rw [← Statement.scope_frameAfter] at hscope
    have hrest := Statement.allPrepares hfit houtside hscope htype.2
      (hlocals.mono (by omega) (by omega)) (Unset.mono_right hexempt)
    exact Statement.prepares_cons hbound hlocals hfirst hrest

end

end

end Cinder
