import Cinder.Proofs.Flow.Lowering
import Cinder.Proofs.Flow.Rounds

/-!
# Graphs without circles

Lowering only ever links a block to one that is still empty, and passes only make
links skip blocks.  So no block of a lowered function is ever behind itself, and
all of them lead to the exit.
-/

namespace Cinder

namespace Flow

variable {table : SymbolTable} {used : VariableSet}

theorem Block.Rewrite.successors {f : Function} {id : BlockId}
    {block new : Block}
    (h : block.Rewrite table used f new) (ha : block.Agrees f.exit id) {t : BlockId}
    (ht : t ∈ new.successors) : ∃ s ∈ block.successors, f.Leads s t := by
  rcases List.mem_append.1 ht with ht | ht
  · obtain ⟨s, hs | hs, hlead⟩ := h.next (Option.mem_toList.1 ht)
    · exact ⟨s, List.mem_append_left _ (Option.mem_toList.2 hs), hlead⟩
    · exact ⟨s, ha.mem_successors hs, hlead⟩
  · obtain ⟨s, hs, hlead⟩ := h.branch (Option.mem_toList.1 ht)
    exact ⟨s, List.mem_append_right _ (Option.mem_toList.2 hs), hlead⟩

theorem Block.Agrees.exists_next {exit id : BlockId} {block : Block} (h : block.Agrees exit id)
    (hexit : id ≠ exit) : ∃ n, block.next = some n := by
  cases h with
  | fall => exact ⟨_, rfl⟩
  | goto => exact ⟨_, rfl⟩
  | branch => exact ⟨_, rfl⟩
  | ret he => exact absurd he hexit

namespace Function

/-- Going from block to block comes to an end. -/
def Acyclic (f : Function) : Prop :=
  WellFounded fun n j => f.Edge j n

variable {f g : Function}

theorem Acyclic.not_transGen (hc : f.Acyclic) (j : BlockId) :
    ¬ Relation.TransGen f.Edge j j := by
  intro h
  have hloop : Relation.TransGen (fun n j => f.Edge j n) j j := Relation.transGen_swap.1 h
  exact hc.transGen.asymmetric j j hloop hloop

theorem Acyclic.of_sinks (hc : f.Acyclic)
    (h : ∀ j n, g.Edge j n → f.Edge j n ∨ ∀ k, ¬ g.Edge n k) : g.Acyclic := by
  constructor
  intro j
  induction j using hc.induction with
  | _ j ih =>
    constructor
    intro n hn
    rcases h j n hn with hold | hsink
    · exact ih n hold
    · exact ⟨n, fun k hk => absurd hk (hsink k)⟩

theorem Acyclic.of_skips (hc : f.Acyclic)
    (h : ∀ j n, g.Edge j n → Relation.TransGen f.Edge j n) : g.Acyclic := by
  refine Subrelation.wf ?_ hc.transGen
  intro n j hn
  exact Relation.transGen_swap.1 (h j n hn)

/-! ## Rewrites -/

theorem Agrees.edges_of_leads (ha : f.Agrees) {s t : BlockId} (h : f.Leads s t) :
    Relation.ReflTransGen f.Edge s t := by
  induction h with
  | here => exact .refl
  | proxy hb hp _ ih =>
    refine .head ?_ ih
    rw [edge_of_block? hb]
    exact (ha hb).mem_successors (jumpsTo_of_proxyTarget? hp)

theorem Acyclic.rewrite (hc : f.Acyclic) (ha : f.Agrees) {id : BlockId}
    (h : f.Rewrite table used id g) : g.Acyclic := by
  obtain ⟨block, new, hb, hrw, rfl⟩ := h
  refine hc.of_skips fun j n hn => ?_
  obtain ⟨other, hother, hn⟩ := exists_block?_of_edge hn
  rw [block?_setBlock hb] at hother
  split at hother
  · rename_i hj
    cases hother
    obtain ⟨s, hs, hlead⟩ := hrw.successors (ha hb) hn
    rw [hj]
    exact .head' ((edge_of_block? hb).2 hs) (ha.edges_of_leads hlead)
  · exact .single ((edge_of_block? hother).2 hn)

theorem WellFormed.acyclic_rounds (hf : f.WellFormed table) (hc : f.Acyclic)
    (h : f.Rounds table g) : g.Acyclic := by
  induction h with
  | refl => exact hc
  | @tail h g hrounds hround ih =>
    have hh : h.WellFormed table := (hf.rounds hrounds).1
    obtain ⟨-, hg⟩ := RewritesIn.keep hround (P := fun g => g.Agrees ∧ g.Acyclic)
      (fun _ hrw hg => ⟨Agrees.rewrite hg.1 hrw, hg.2.rewrite hg.1 hrw⟩) ⟨hh.agrees, ih⟩
    exact hg

theorem Acyclic.reaches_exit (hc : f.Acyclic) (ha : f.Agrees) (hl : f.Linked) {j : BlockId}
    (hj : j < f.blocks.size) : Relation.ReflTransGen f.Edge j f.exit := by
  induction j using hc.induction with
  | _ j ih =>
    by_cases hexit : j = f.exit
    · rw [hexit]
    · obtain ⟨block, hb⟩ := exists_block? hj
      obtain ⟨n, hn⟩ := (ha hb).exists_next hexit
      have hedge : f.Edge j n := (edge_of_block? hb).2 (by simp [Block.successors, hn])
      exact .head hedge (ih n hedge (hl.next hb hn))

/-! ## Functions under construction -/

/-- A link of a function with a changed block is an old one or one of the block. -/
theorem edge_modifyBlock {id j n : BlockId} {change : Block → Block}
    (h : (f.modifyBlock id change).Edge j n) :
    f.Edge j n ∨ ∃ block, f.block? j = some block ∧ n ∈ (change block).successors := by
  rcases f.modifyBlock_cases id change with hsame | ⟨block, hb, hset⟩
  · rw [hsame] at h
    exact .inl h
  · rw [hset] at h
    obtain ⟨other, hother, hn⟩ := exists_block?_of_edge h
    rw [block?_setBlock hb] at hother
    split at hother
    · rename_i hj
      cases hother
      exact .inr ⟨block, hj ▸ hb, hn⟩
    · exact .inl ((edge_of_block? hother).2 hn)

theorem edge_append {id j n : BlockId} {l : List Instruction}
    (h : (f.modifyBlock id fun block =>
      { block with instructions := block.instructions ++ l }).Edge j n) : f.Edge j n := by
  rcases edge_modifyBlock h with h | ⟨block, hb, hn⟩
  · exact h
  · exact (edge_of_block? hb).2 hn

theorem edge_addBlock {j n : BlockId} (hfit : f.blocks.size < UInt32.size)
    (h : f.addBlock.Edge j n) : f.Edge j n := by
  obtain ⟨block, hb, hn⟩ := exists_block?_of_edge h
  rw [block?_addBlock hfit] at hb
  split at hb
  · cases hb
    cases hn
  · exact (edge_of_block? hb).2 hn

end Function

namespace Draft

variable {draft : Draft} {j n : BlockId}

theorem edge_emit {l : List Instruction} (h : (draft.emit l).function.Edge j n) :
    draft.function.Edge j n :=
  Function.edge_append h

theorem edge_jump {target : BlockId} (h : (draft.jump target).function.Edge j n) :
    draft.function.Edge j n ∨ n = target := by
  rw [function_jump] at h
  rcases Function.edge_modifyBlock h with h | ⟨block, hb, hn⟩
  · exact .inl h
  · rcases List.mem_cons.1 hn with hn | hn
    · exact .inr hn
    · exact .inl ((Function.edge_of_block? hb).2 (List.mem_append_right _ hn))

theorem edge_jumpIfOpen {target : BlockId} (h : (draft.jumpIfOpen target).function.Edge j n) :
    draft.function.Edge j n ∨ n = target := by
  rw [jumpIfOpen] at h
  split at h
  · exact .inl h
  · exact edge_jump h

theorem edge_fork {condition : Operand} (hfit : draft.function.blocks.size + 3 ≤ UInt32.size)
    (h : (draft.fork condition).function.Edge j n) :
    draft.function.Edge j n ∨ n = draft.forkTargets.1 ∨ n = draft.forkTargets.2.1 := by
  have hsize₁ := draft.function.size_addBlock
  have hsize₂ := draft.function.addBlock.size_addBlock
  simp only [fork, enter, function_split] at h
  rcases Function.edge_modifyBlock h with h | ⟨block, hb, hn⟩
  · have h₂ := Function.edge_addBlock (by omega) h
    have h₁ := Function.edge_addBlock (by omega) h₂
    exact .inl (Function.edge_addBlock (by omega) h₁)
  · rcases List.mem_cons.1 hn with hn | hn
    · exact .inr (.inr hn)
    · exact .inr (.inl (List.mem_singleton.1 hn))

end Draft

namespace Stage

/-- The block holds no jump yet, so it has no links. -/
def Waits (s : Stage) (n : BlockId) : Prop :=
  n ∈ s.draft.function.exit :: s.pending ∨ s.isOpen = true ∧ n = s.draft.current

theorem Sound.not_edge {s : Stage} (hs : s.Sound) {n : BlockId} (hn : s.Waits n) (k : BlockId) :
    ¬ s.draft.function.Edge n k := by
  intro h
  rcases hn with hn | ⟨hopen, rfl⟩
  · rw [Function.edge_of_block? (hs.shaped.waiting n hn)] at h
    cases h
  · obtain ⟨block, hb, hshape⟩ := hs.shaped.shape
    rw [shape, if_pos hopen] at hshape
    obtain ⟨body, -, rfl⟩ := hshape
    rw [Function.edge_of_block? hb] at h
    cases h

theorem Step.edge {first : Nat} {s s' : Stage} (h : Stage.Step first s s') (hfit : s'.Fits)
    {j n : BlockId} (hn : s'.draft.function.Edge j n) :
    s.draft.function.Edge j n ∨ s'.Waits n := by
  cases h with
  | declare => exact .inl (Draft.edge_emit hn)
  | extend => exact .inl (Draft.edge_emit hn)
  | leave =>
    rcases Draft.edge_jump hn with hn | rfl
    · exact .inl hn
    · exact .inr (.inl (by simp))
  | @fork pending draft l supply condition h hcondition =>
    have hsize : (draft.extend l supply).function.blocks.size + 3 ≤ UInt32.size :=
      Draft.size_fork (draft.extend l supply) condition ▸ hfit.blocks
    rcases Draft.edge_fork hsize hn with hn | rfl | rfl
    · exact .inl (Draft.edge_emit hn)
    · exact .inr (.inr ⟨rfl, rfl⟩)
    · exact .inr (.inl (by simp))
  | @join id pending draft isOpen after hafter =>
    rcases Draft.edge_jumpIfOpen hn with hn | rfl
    · exact .inl hn
    · rcases List.mem_cons.1 hafter with rfl | hafter
      · exact .inr (.inr ⟨rfl, rfl⟩)
      · exact .inr (.inl (List.mem_cons_of_mem _ hafter))

theorem Steps.acyclic {first : Nat} {s s' : Stage} (h : Stage.Steps first s s') (hfit : s'.Fits)
    (hs : s.Sound) (hc : s.draft.function.Acyclic) : s'.draft.function.Acyclic := by
  induction h with
  | refl => exact hc
  | @tail t u hsteps h ih =>
    have hu : u.Sound := h.sound hfit (Steps.sound hsteps (h.fits hfit) hs)
    refine (ih (h.fits hfit)).of_sinks fun j n hn => ?_
    rcases h.edge hfit hn with hn | hn
    · exact .inl hn
    · exact .inr (hu.not_edge hn)

end Stage

namespace Draft

variable {draft draft' : Draft}

/-- A function that starts out with an entry and an exit has no links. -/
theorem acyclic_of_ofSymbol {symbol : SymbolId} (h : Draft.ofSymbol table symbol = .ok draft) :
    draft.function.Acyclic := by
  obtain ⟨-, -, -, hblock⟩ := exists_of_ofSymbol h
  refine ⟨fun j => ⟨j, fun n hn => ?_⟩⟩
  obtain ⟨block, hb, hn⟩ := Function.exists_block?_of_edge hn
  obtain ⟨-, rfl⟩ := hblock hb
  cases hn

theorem acyclic_of_edge (hc : draft.function.Acyclic)
    (h : ∀ j n, draft'.function.Edge j n → draft.function.Edge j n) : draft'.function.Acyclic :=
  hc.of_sinks fun j n hn => .inl (h j n hn)

theorem acyclic_declareReturn (hc : draft.function.Acyclic) :
    draft.declareReturn.function.Acyclic := by
  unfold declareReturn
  split
  · exact hc
  · exact acyclic_of_edge hc fun _ _ hn => Function.edge_append hn

theorem acyclic_of_declareParameter {parameters : List (Parameter SymbolId)}
    (h : parameters.foldlM declareParameter draft = .ok draft') (hc : draft.function.Acyclic) :
    draft'.function.Acyclic :=
  declareParameters_induction (P := (·.function.Acyclic)) h hc fun _ _ _ _ _ hc =>
    acyclic_of_edge hc fun _ _ hn => Function.edge_append hn

theorem acyclic_of_finish {isOpen : Bool} (hs : Stage.Sound ⟨[], draft, isOpen⟩)
    (h : draft.finish = .ok draft') (hc : draft.function.Acyclic) : draft'.function.Acyclic := by
  rw [finish_eq] at h
  have hs' : Stage.Sound ⟨[], draft.jumpIfOpen draft.function.exit, false⟩ :=
    hs.jumpIfOpen List.mem_cons_self
  have hjump : (draft.jumpIfOpen draft.function.exit).function.Acyclic := by
    refine hc.of_sinks fun j n hn => ?_
    rcases edge_jumpIfOpen hn with hn | rfl
    · exact .inl hn
    · exact .inr (hs'.not_edge (.inl (by simp)))
  unfold fillExit at h
  split at h
  · cases h
    exact acyclic_of_edge hjump fun _ _ hn => Function.edge_append hn
  · obtain ⟨ty, -, h⟩ := bind_eq_ok.1 h
    cases h
    exact acyclic_of_edge hjump fun _ _ hn => Function.edge_append hn

end Draft

end Flow

open Cinder.Flow

namespace Definition

variable {table table₀ : SymbolTable} {definition : Definition.Typed}

theorem Drafts.acyclic {start opened last complete : Draft} (hknown : definition.KnownIn table₀)
    (hkeeps : table₀.Keeps table) (h : Drafts table definition start opened last complete)
    (hsymbols : complete.supply.symbols.size ≤ UInt32.size)
    (hblocks : complete.function.blocks.size ≤ UInt32.size) : complete.function.Acyclic := by
  obtain ⟨isOpen, hsteps, hfit, -, hopened⟩ := h.staged hknown hkeeps hsymbols hblocks
  have hc : opened.function.Acyclic := Draft.acyclic_of_declareParameter h.opens
    (Draft.acyclic_declareReturn (Draft.acyclic_of_ofSymbol h.starts))
  exact Draft.acyclic_of_finish (Stage.Steps.sound hsteps hfit hopened) h.finishes
    (Stage.Steps.acyclic hsteps hfit hopened hc)

end Definition

/-- Lowering an accepted program makes no circles. -/
theorem Program.acyclic_of_lower {text : String} {program : Program.Typed} {table : SymbolTable}
    {m : Module} (hsource : ofSource text = .ok (program, table))
    (h : program.lower table = .ok m) (hfit : m.Addressable) : ∀ f ∈ m.functions, f.Acyclic := by
  obtain ⟨hb, ht⟩ := wellTyped_of_ofSource hsource
    (Nat.le_trans (keeps_of_lower h).size_le hfit.symbols)
  intro f hf
  obtain ⟨d, hd, before, start, opened, last, complete, hbefore, hdrafts, rfl, hafter⟩ :=
    forall₂_exists_left (drafts_of_lower h) hf
  exact hdrafts.acyclic (knownIn hb ht d hd) hbefore (Nat.le_trans hafter.size_le hfit.symbols)
    (hfit.blocks _ hf)

end Cinder
