import Cinder.Proofs.Flow.Lowering

/-!
# Temporaries of different blocks

Lowering takes a new temporary for every value, so no temporary is written in two
blocks.  Passes write nothing that was not written before.
-/

namespace Cinder.Flow

variable {id : BlockId} {used : VariableSet}

variable {table table' : SymbolTable} {v : Variable} {j : BlockId}

/-! ## Where variables are written -/

namespace Function

def Defines (f : Function) (v : Variable) (j : BlockId) : Prop :=
  ∃ block, f.block? j = some block ∧ v ∈ definitions block.instructions

/-- No temporary is written in two blocks. -/
def Apart (table : SymbolTable) (f : Function) : Prop :=
  ∀ v j k, table.isTemporary v.symbol = true → f.Defines v j → f.Defines v k → j = k

variable {f g : Function}

theorem Apart.of_defines (h : f.Apart table)
    (hsub : ∀ v j, table.isTemporary v.symbol = true → g.Defines v j → f.Defines v j) :
    g.Apart table :=
  fun v j k hv hj hk => h v j k hv (hsub v j hv hj) (hsub v k hv hk)

/-- No temporary is written in two blocks, and all that are written were added to a table of
`base` symbols. -/
structure Fresh (base : Nat) (table : SymbolTable) (f : Function) : Prop where
  apart : f.Apart table
  added : ∀ v j, table.isTemporary v.symbol = true → f.Defines v j → base ≤ v.symbol

theorem Fresh.of_fresh {base : Nat} (h : f.Fresh base table) (hbase : base ≤ table.size)
    (id : BlockId) (hclean : f.CleanIn table) (hkeeps : table.Keeps table')
    (hfresh : ∀ v j, table'.isTemporary v.symbol = true → g.Defines v j →
      f.Defines v j ∨ j = id ∧ table.size ≤ v.symbol) : g.Fresh base table' := by
  have hknown : ∀ {v j}, f.Defines v j → v.symbol < table.size := by
    rintro v j ⟨block, hb, hv⟩
    exact (hclean j block hb).mem_definitions_lt hv
  have hold : ∀ {v j}, table'.isTemporary v.symbol = true → f.Defines v j →
      table.isTemporary v.symbol = true := by
    intro v j hv hj
    rw [← hkeeps.isTemporary (hknown hj), hv]
  constructor
  · intro v j k hv hj hk
    rcases hfresh v j hv hj with hj | ⟨rfl, hj⟩ <;> rcases hfresh v k hv hk with hk | ⟨rfl, hk⟩
    · exact h.apart v j k (hold hv hj) hj hk
    · exact absurd (hknown hj) (Nat.not_lt.2 hk)
    · exact absurd (hknown hk) (Nat.not_lt.2 hj)
    · rfl
  · intro v j hv hj
    rcases hfresh v j hv hj with hj | ⟨-, hj⟩
    · exact h.added v j (hold hv hj) hj
    · exact Nat.le_trans hbase hj

/-! ## Lowering -/

theorem defines_modifyBlock {l : List Instruction} {change : Block → Block}
    (hchange : ∀ block, (change block).instructions = block.instructions ++ l)
    (h : (f.modifyBlock id change).Defines v j) :
    f.Defines v j ∨ j = id ∧ v ∈ definitions l := by
  rcases f.modifyBlock_cases id change with hsame | ⟨block, hb, hnew⟩
  · rw [hsame] at h
    exact .inl h
  · rw [hnew] at h
    obtain ⟨other, hother, hv⟩ := h
    rw [block?_setBlock hb] at hother
    split at hother
    · rename_i hj
      cases hother
      rw [hchange, definitions_append, List.mem_append] at hv
      exact hv.imp (fun hv => ⟨block, hj ▸ hb, hv⟩) fun hv => ⟨hj, hv⟩
    · exact .inl ⟨other, hother, hv⟩

theorem defines_addBlock (h : f.addBlock.Defines v j) : f.Defines v j := by
  obtain ⟨block, hb, hv⟩ := h
  rw [show f.addBlock.block? j = _ from Arena.get?_push ..] at hb
  split at hb
  · cases hb
    cases hv
  · exact ⟨block, hb, hv⟩

end Function

namespace Draft

variable {draft draft' : Draft}

theorem defines_emit {l : List Instruction} (h : (draft.emit l).function.Defines v j) :
    draft.function.Defines v j ∨ j = draft.current ∧ v ∈ definitions l :=
  Function.defines_modifyBlock (fun _ => rfl) h

theorem defines_jump {target : BlockId} (h : (draft.jump target).function.Defines v j) :
    draft.function.Defines v j := by
  rw [function_jump] at h
  rcases Function.defines_modifyBlock (fun _ => rfl) h with h | ⟨-, hv⟩
  · exact h
  · cases hv

theorem defines_jumpIfOpen {target : BlockId} (h : (draft.jumpIfOpen target).function.Defines v j) :
    draft.function.Defines v j := by
  rw [jumpIfOpen] at h
  split at h
  · exact h
  · exact defines_jump h

theorem defines_fork {condition : Operand} (h : (draft.fork condition).function.Defines v j) :
    draft.function.Defines v j := by
  simp only [fork, enter, function_split] at h
  rcases Function.defines_modifyBlock (fun _ => rfl) h with h | ⟨-, hv⟩
  · exact Function.defines_addBlock (Function.defines_addBlock (Function.defines_addBlock h))
  · cases hv

end Draft

/-- A step of lowering writes new temporaries in the current block only. -/
theorem Stage.Step.defines {first : Nat} {s s' : Stage} (h : Stage.Step first s s')
    (hfit : s'.Fits) (hs : s.Sound)
    (hv : s'.draft.supply.symbols.isTemporary v.symbol = true)
    (hdefines : s'.draft.function.Defines v j) :
    s.draft.function.Defines v j ∨
      j = s.draft.current ∧ s.draft.supply.symbols.size ≤ v.symbol := by
  have hstraight : ∀ {l supply}, Straight s.draft.slots s.draft.returnSlot s.draft.supply l supply →
      supply.symbols.size ≤ UInt32.size → supply.symbols.isTemporary v.symbol = true →
      v ∈ definitions l → s.draft.supply.symbols.size ≤ v.symbol := by
    intro l supply h hfit htemp hv
    rcases h.mem_definitions hfit hv with hle | hslot
    · exact hle
    · apply Nat.le_of_not_lt
      intro hlt
      rw [h.keeps.isTemporary hlt, (hs.slots v hslot).lasting] at htemp
      cases htemp
  cases h with
  | declare hfirst h =>
    rcases Draft.defines_emit hdefines with hdefines | ⟨-, hmem⟩
    · exact .inl hdefines
    · cases hmem
  | extend h =>
    rcases Draft.defines_emit hdefines with hdefines | ⟨hj, hmem⟩
    · exact .inl hdefines
    · exact .inr ⟨hj, hstraight h hfit.symbols hv hmem⟩
  | leave => exact .inl (Draft.defines_jump hdefines)
  | fork h hcondition =>
    rcases Draft.defines_emit (Draft.defines_fork hdefines) with hdefines | ⟨hj, hmem⟩
    · exact .inl hdefines
    · exact .inr ⟨hj, hstraight h hfit.symbols hv hmem⟩
  | join h => exact .inl (Draft.defines_jumpIfOpen hdefines)

theorem Stage.Steps.fresh {base first : Nat} {s s' : Stage} (h : Stage.Steps first s s')
    (hfit : s'.Fits) (hs : s.Sound) (hbase : base ≤ s.draft.supply.symbols.size)
    (hf : s.draft.function.Fresh base s.draft.supply.symbols) :
    s'.draft.function.Fresh base s'.draft.supply.symbols := by
  induction h with
  | refl => exact hf
  | @tail t u hsteps h ih =>
    have ht : t.Sound := Stage.Steps.sound hsteps (h.fits hfit) hs
    have hkeeps := (Stage.Steps.keeps hsteps).size_le
    exact (ih (h.fits hfit)).of_fresh (Nat.le_trans hbase hkeeps) _ ht.clean h.keeps
      fun v j => h.defines hfit ht

namespace Draft

variable {draft draft' : Draft} {base : Nat}

theorem fresh_of_ofSymbol {symbol : SymbolId} (h : Draft.ofSymbol table symbol = .ok draft) :
    draft.function.Fresh base table := by
  obtain ⟨-, -, -, hblock⟩ := exists_of_ofSymbol h
  have hnone : ∀ v j, ¬ draft.function.Defines v j := by
    rintro v j ⟨block, hb, hv⟩
    obtain ⟨-, rfl⟩ := hblock hb
    cases hv
  exact ⟨fun v j k _ hj => absurd hj (hnone v j), fun v j _ hj => absurd hj (hnone v j)⟩

theorem fresh_declareReturn (hs : Stage.Sound ⟨[], draft, true⟩)
    (hbase : base ≤ draft.supply.symbols.size)
    (h : draft.function.Fresh base draft.supply.symbols) :
    draft.declareReturn.function.Fresh base draft.declareReturn.supply.symbols := by
  refine h.of_fresh hbase draft.current hs.clean draft.keeps_declareReturn fun v j _ hdefines => ?_
  unfold declareReturn at hdefines
  split at hdefines
  · exact .inl hdefines
  · rcases defines_emit hdefines with hdefines | ⟨-, hv⟩
    · exact .inl hdefines
    · cases hv

theorem fresh_bindParameter {p : Parameter SymbolId} {ty : Ty} (hs : Stage.Sound ⟨[], draft, true⟩)
    (hbase : base ≤ draft.supply.symbols.size)
    (hfit : (draft.bindParameter p ty).supply.symbols.size ≤ UInt32.size)
    (h : draft.function.Fresh base draft.supply.symbols) :
    (draft.bindParameter p ty).function.Fresh base (draft.bindParameter p ty).supply.symbols := by
  have hkeeps := draft.keeps_bindParameter p ty
  refine h.of_fresh hbase draft.current hs.clean hkeeps fun v j hv hdefines => ?_
  rcases defines_emit hdefines with hdefines | ⟨-, hmem⟩
  · exact .inl hdefines
  · have hslot := (Supply.slotIn_slot hfit nofun).lasting
    rw [List.mem_singleton.1 hmem] at hv
    exact absurd (hv.symm.trans hslot) nofun

theorem fresh_of_declareParameter {parameters : List (Parameter SymbolId)}
    (hkeeps : table.Keeps draft.supply.symbols)
    (hp : ∀ p ∈ parameters,
      table.get? p.symbol = some ⟨p.name.name, .var (some p.ty.ty) .parameter⟩)
    (h : parameters.foldlM declareParameter draft = .ok draft')
    (hfit : draft'.supply.symbols.size ≤ UInt32.size) (hs : Stage.Sound ⟨[], draft, true⟩)
    (hbase : base ≤ draft.supply.symbols.size)
    (hf : draft.function.Fresh base draft.supply.symbols) :
    draft'.function.Fresh base draft'.supply.symbols := by
  induction parameters generalizing draft with
  | nil =>
    cases h
    exact hf
  | cons p rest ih =>
    obtain ⟨draft₁, hfirst, h⟩ := bind_eq_ok.1 h
    have hget := hkeeps.get (hp p List.mem_cons_self)
    rw [declareParameter_of_get? hget] at hfirst
    cases hfirst
    have hsize := Nat.le_trans (keeps_of_declareParameter h).size_le hfit
    have hnext := draft.keeps_bindParameter p p.ty.ty
    exact ih (hkeeps.trans hnext) (fun q hq => hp q (List.mem_cons_of_mem _ hq)) h
      (hs.parameter hget hsize) (Nat.le_trans hbase hnext.size_le)
      (fresh_bindParameter hs hbase hsize hf)

theorem fresh_of_finish {isOpen : Bool} (hs : Stage.Sound ⟨[], draft, isOpen⟩)
    (h : draft.finish = .ok draft') (hfit : draft'.supply.symbols.size ≤ UInt32.size)
    (hbase : base ≤ draft.supply.symbols.size)
    (hf : draft.function.Fresh base draft.supply.symbols) :
    draft'.function.Fresh base draft'.supply.symbols := by
  have hkeeps := keeps_of_finish h
  refine hf.of_fresh hbase draft.function.exit hs.clean hkeeps fun v j _ hdefines => ?_
  rw [finish_eq, fillExit] at h
  split at h
  · cases h
    rcases defines_emit hdefines with hdefines | ⟨-, hv⟩
    · exact .inl (defines_jumpIfOpen hdefines)
    · cases hv
  · obtain ⟨ty, -, h⟩ := bind_eq_ok.1 h
    cases h
    rcases defines_emit hdefines with hdefines | ⟨hj, hv⟩
    · exact .inl (defines_jumpIfOpen hdefines)
    · change ((draft.jumpIfOpen _).supply.temporary ty).2.symbols.size ≤ _ at hfit
      rw [Supply.size_temporary, supply_jumpIfOpen] at hfit
      rw [List.mem_singleton.1 hv, supply_jumpIfOpen]
      refine .inr ⟨hj.trans (exit_jumpIfOpen ..), Nat.le_of_eq ?_⟩
      exact (Supply.temporary_symbol hfit ty).symm

end Draft

/-! ## Rewrites -/

theorem Block.Rewrite.definitions_subset {f : Function} {block new : Block}
    (h : block.Rewrite table used f new) (hv : v ∈ definitions new.instructions) :
    v ∈ definitions block.instructions := by
  obtain ⟨i, hi, hdef⟩ := mem_definitions.1 hv
  rw [mem_definitions]
  cases h with
  | fold =>
    obtain ⟨k, hk, rfl⟩ := List.mem_map.1 hi
    exact ⟨k, hk, by rwa [Instruction.definition_fold] at hdef⟩
  | propagate =>
    obtain ⟨k, hk, rfl⟩ := List.mem_map.1 hi
    exact ⟨k, hk, by rwa [Instruction.definition_mapReplaceable] at hdef⟩
  | prune => exact ⟨i, mem_of_mem_prune hi, hdef⟩
  | decide hd =>
    rcases mem_of_decideBranch hd hi with hi | ⟨t, condition, rfl, -⟩
    · exact ⟨i, hi, hdef⟩
    · cases hdef
  | redirect hlead hlast hend =>
    obtain ⟨k, hk, rfl⟩ := List.mem_map.1 hi
    exact ⟨k, hk, by rwa [Instruction.definition_retarget] at hdef⟩

/-- A rewrite writes nothing that was not written in that block before. -/
theorem Function.Rewrite.defines {f g : Function} (h : f.Rewrite table used id g)
    (hdefines : g.Defines v j) : f.Defines v j := by
  obtain ⟨block, new, hb, hrw, rfl⟩ := h
  obtain ⟨other, hother, hv⟩ := hdefines
  rw [block?_setBlock hb] at hother
  split at hother
  · rename_i hj
    cases hother
    exact ⟨block, hj ▸ hb, hrw.definitions_subset hv⟩
  · exact ⟨other, hother, hv⟩

theorem Function.Apart.rewrite {f g : Function} (h : f.Apart table)
    (hrw : f.Rewrite table used id g) : g.Apart table :=
  h.of_defines fun _ _ _ => hrw.defines

theorem Function.Rounds.defines {f g : Function} (h : f.Rounds table g)
    (hdefines : g.Defines v j) : f.Defines v j := by
  induction h with
  | refl => exact hdefines
  | @tail a b _ hround ih =>
    have hkeep := RewritesIn.keep hround (P := fun g => g.Defines v j → a.Defines v j)
      (fun _ hrw hg hdefines => hg (hrw.defines hdefines)) id
    exact ih (hkeep hdefines)

/-- No temporary is written by both functions. -/
def Function.Separate (table : SymbolTable) (f g : Function) : Prop :=
  ∀ v j k, table.isTemporary v.symbol = true → f.Defines v j → ¬ g.Defines v k

theorem Function.separate_of_rounds {fs gs : List Function}
    (h : fs.Pairwise (Function.Separate table))
    (hrounds : List.Forall₂ (Function.Rounds table) fs gs) :
    gs.Pairwise (Function.Separate table) := by
  induction hrounds with
  | nil => exact .nil
  | @cons f g fs gs hfg hrounds ih =>
    obtain ⟨hf, hfs⟩ := List.pairwise_cons.1 h
    refine .cons ?_ (ih hfs)
    intro g' hg' v j k hv hj hk
    obtain ⟨f', hf', hrounds'⟩ := forall₂_exists_left hrounds hg'
    exact hf f' hf' v j k hv (hfg.defines hj) (hrounds'.defines hk)

end Flow

open Cinder.Flow

namespace Definition

variable {table table₀ : SymbolTable}

theorem Drafts.fresh {definition : Definition.Typed}
    {start opened last complete : Draft}
    (hknown : definition.KnownIn table₀) (hkeeps : table₀.Keeps table)
    (h : Drafts table definition start opened last complete)
    (hsymbols : complete.supply.symbols.size ≤ UInt32.size)
    (hblocks : complete.function.blocks.size ≤ UInt32.size) :
    complete.function.Fresh table.size complete.supply.symbols := by
  obtain ⟨isOpen, hsteps, hfit, hfits, hopened⟩ := h.staged hknown hkeeps hsymbols hblocks
  have hstart : start.function.Fresh table.size start.supply.symbols := by
    rw [Draft.symbols_of_ofSymbol h.starts]
    exact Draft.fresh_of_ofSymbol h.starts
  have hsound := Draft.sound_of_ofSymbol h.starts
  have hsize := Nat.le_trans (Draft.keeps_of_declareParameter h.opens).size_le hfits
  have hreturn := start.keeps_declareReturn
  rw [Draft.symbols_of_ofSymbol h.starts] at hreturn
  have hreserved := Draft.fresh_declareReturn hsound
    (Nat.le_of_eq (congrArg SymbolTable.size (Draft.symbols_of_ofSymbol h.starts)).symm) hstart
  have hf : opened.function.Fresh table.size opened.supply.symbols :=
    Draft.fresh_of_declareParameter (hkeeps.trans hreturn) hknown.heading.parameters h.opens hfits
      (Draft.sound_declareReturn hsound hsize) hreturn.size_le hreserved
  have hbase := h.keeps_opened.size_le
  exact Draft.fresh_of_finish (Stage.Steps.sound hsteps hfit hopened) h.finishes hsymbols
    (Nat.le_trans hbase (Stage.Steps.keeps hsteps).size_le)
    (Stage.Steps.fresh hsteps hfit hopened hbase hf)

/-- The functions behind a definition take temporaries that it has not seen. -/
theorem separate_of_lowerAll {definitions : List Definition.Typed}
    {result : List Function × SymbolTable} (hknown : ∀ d ∈ definitions, d.KnownIn table₀)
    (hkeeps : table₀.Keeps table) (h : lowerAll table definitions = .ok result)
    (hsymbols : result.2.size ≤ UInt32.size)
    (hblocks : ∀ f ∈ result.1, f.blocks.size ≤ UInt32.size) :
    result.1.Pairwise (Function.Separate result.2) := by
  induction definitions generalizing table result with
  | nil =>
    cases h
    exact .nil
  | cons d rest ih =>
    obtain ⟨⟨f, table₁⟩, hfirst, h⟩ := bind_eq_ok.1 h
    obtain ⟨⟨functions, table₂⟩, hrest, h⟩ := bind_eq_ok.1 h
    cases h
    obtain ⟨start, opened, last, complete, hdrafts, hresult⟩ := drafts_of_lower hfirst
    cases hresult
    rw [List.forall_mem_cons] at hknown hblocks
    have hafter : complete.supply.symbols.Keeps table₂ := keeps_of_lowerAll hrest
    have hsize := Nat.le_trans hafter.size_le hsymbols
    have hclean := (hdrafts.completes hknown.1 hkeeps hsize hblocks.1).clean
    refine .cons ?_ (ih hknown.2 (hkeeps.trans hdrafts.keeps) hrest hsymbols hblocks.2)
    rintro g hg v j k hv ⟨block, hb, hmem⟩ hk
    have hold : v.symbol < complete.supply.symbols.size :=
      (hclean j block hb).mem_definitions_lt hmem
    obtain ⟨e, he, before, start', opened', last', complete', hbefore, hdrafts', rfl, hafter'⟩ :=
      forall₂_exists_left (drafts_of_lowerAll hrest) hg
    have hknown' := hknown.2 e he
    have hkeeps' := (hkeeps.trans hdrafts.keeps).trans hbefore
    have hsize' := Nat.le_trans hafter'.size_le hsymbols
    have hblocks' := hblocks.2 _ hg
    have hnew := (hdrafts'.fresh hknown' hkeeps' hsize' hblocks').added v k
    have hclean' := (hdrafts'.completes hknown' hkeeps' hsize' hblocks').clean
    obtain ⟨block', hb', hmem'⟩ := hk
    have hlt := (hclean' k block' hb').mem_definitions_lt hmem'
    rw [hafter'.isTemporary hlt] at hv
    have hle := hnew hv ⟨block', hb', hmem'⟩
    exact absurd hold (Nat.not_lt.2 (Nat.le_trans hbefore.size_le hle))

end Definition

namespace Program

variable {text : String} {program : Program.Typed} {table : SymbolTable} {m : Module}

/-- Lowering an accepted program writes no temporary in two blocks. -/
theorem apart_of_lower (hsource : ofSource text = .ok (program, table))
    (h : program.lower table = .ok m) (hfit : m.Addressable) :
    ∀ f ∈ m.functions, f.Apart m.symbols := by
  obtain ⟨hb, ht⟩ := wellTyped_of_ofSource hsource
    (Nat.le_trans (keeps_of_lower h).size_le hfit.symbols)
  intro f hf
  obtain ⟨d, hd, before, start, opened, last, complete, hbefore, hdrafts, rfl, hafter⟩ :=
    forall₂_exists_left (drafts_of_lower h) hf
  have hsymbols := Nat.le_trans hafter.size_le hfit.symbols
  have hknown := knownIn hb ht d hd
  have hfresh := hdrafts.fresh hknown hbefore hsymbols (hfit.blocks _ hf)
  have hclean := (hdrafts.completes hknown hbefore hsymbols (hfit.blocks _ hf)).clean
  exact (hfresh.of_fresh hdrafts.keeps.size_le 0 hclean hafter
    fun v j _ hdefines => .inl hdefines).apart

/-- Lowering an accepted program writes no temporary in two functions. -/
theorem separate_of_lower (hsource : ofSource text = .ok (program, table))
    (h : program.lower table = .ok m) (hfit : m.Addressable) :
    m.functions.Pairwise (Function.Separate m.symbols) := by
  obtain ⟨hb, ht⟩ := wellTyped_of_ofSource hsource
    (Nat.le_trans (keeps_of_lower h).size_le hfit.symbols)
  obtain ⟨⟨functions, table'⟩, hlower, h⟩ := bind_eq_ok.1 h
  cases h
  exact Definition.separate_of_lowerAll (knownIn hb ht) (.refl _) hlower hfit.symbols hfit.blocks

end Program

end Cinder
