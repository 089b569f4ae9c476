import Cinder.Proofs.Flow.Shaping
import Cinder.Proofs.Flow.Optimizer
import Cinder.Proofs.Typing.Program

/-!
# Lowered functions are well-formed

Lowering starts from a function with an entry and an exit and ends by filling the
exit.  What it makes of an accepted program is what passes expect, as long as all
handles fit.
-/

namespace Cinder.Flow

variable {table table' : SymbolTable}

variable {f : Function}

/-- If the links agree with the instructions, only the links have to lead to
blocks. -/
theorem Function.Agrees.linked (h : f.Agrees) (hentry : f.entry < f.blocks.size)
    (hexit : f.exit < f.blocks.size)
    (hlinks : ∀ {j block n}, f.block? j = some block → n ∈ block.successors → n < f.blocks.size) :
    f.Linked := by
  refine ⟨hentry, hexit, ?_, ?_, fun hb hn => hlinks hb ((h hb).mem_successors hn)⟩
  · intro j block n hb hn
    exact hlinks hb (by simp [Block.successors, hn])
  · intro j block n hb hn
    exact hlinks hb (by simp [Block.successors, hn])

structure Function.Complete (table : SymbolTable) (f : Function) : Prop where
  linked : f.Linked
  agrees : f.Agrees
  clean : f.CleanIn table

theorem Function.Complete.keeps (h : f.Complete table) (hkeeps : table.Keeps table') :
    f.Complete table' :=
  ⟨h.linked, h.agrees, h.clean.keeps hkeeps⟩

theorem Function.Complete.wellFormed (h : f.Complete table) : f.WellFormed table :=
  ⟨h.linked, h.agrees, fun hb => (h.clean _ _ hb).tidy⟩

namespace Draft

variable {draft : Draft}

theorem function_enter_emit (draft : Draft) (id : BlockId) (l : List Instruction) :
    ((draft.enter id).emit l).function = draft.function.modifyBlock id fun block =>
      { block with instructions := block.instructions ++ l } :=
  rfl

theorem complete_of_sound {value : Option (Operand × Ty)} (h : Stage.Sound ⟨[], draft, false⟩)
    (body : List Instruction) (hbody : ∀ i ∈ body, i.isPlain = true)
    (hkeeps : draft.supply.symbols.Keeps table)
    (hclean : Clean table ([Instruction.label draft.function.exit] ++
      (body ++ [Instruction.ret value]))) :
    ((draft.enter draft.function.exit).emit
      (body ++ [Instruction.ret value])).function.Complete table := by
  obtain ⟨last, hlast, hshape⟩ := h.shaped.shape
  have hexit := h.shaped.waiting _ List.mem_cons_self
  rw [function_enter_emit]
  generalize hf : draft.function.modifyBlock draft.function.exit (fun block =>
    { block with instructions := block.instructions ++ (body ++ [Instruction.ret value]) }) = f
  have hcases : ∀ {j block}, f.block? j = some block →
      j = f.exit ∧
        block = ⟨[Instruction.label j] ++ (body ++ [Instruction.ret value]), none, none⟩ ∨
        j ≠ f.exit ∧ draft.function.block? j = some block := by
    intro j block hb
    rw [← hf, Function.block?_modifyBlock hexit] at hb
    rw [← hf, Function.modifyBlock_exit]
    split at hb
    · rename_i hj
      cases hb
      exact .inl ⟨hj, by rw [hj]; rfl⟩
    · rename_i hj
      exact .inr ⟨hj, hb⟩
  have hfexit : f.exit = draft.function.exit := by rw [← hf, Function.modifyBlock_exit]
  have hagrees : f.Agrees := by
    intro j block hb
    rcases hcases hb with ⟨rfl, rfl⟩ | ⟨hj, hb⟩
    · exact .ret rfl hbody
    · rw [hfexit] at hj ⊢
      by_cases hcurrent : j = draft.current
      · subst hcurrent
        cases hlast.symm.trans hb
        exact hshape.1
      · refine h.shaped.complete hb ?_
        simp only [List.mem_cons, List.not_mem_nil, or_false, not_or]
        exact ⟨hcurrent, hj⟩
  have hsize : f.blocks.size = draft.function.blocks.size := by rw [← hf, Function.modifyBlock_size]
  refine ⟨hagrees.linked ?_ ?_ ?_, hagrees, ?_⟩
  · rw [hsize, ← hf, Function.modifyBlock_entry]
    exact h.shaped.entry
  · rw [hsize, hfexit]
    exact h.shaped.lt_size List.mem_cons_self
  · intro j block n hb hn
    rw [hsize]
    rcases hcases hb with ⟨rfl, rfl⟩ | ⟨-, hb⟩
    · cases hn
    · exact h.shaped.linked hb hn
  · intro j block hb
    rcases hcases hb with ⟨rfl, rfl⟩ | ⟨-, hb⟩
    · rw [hfexit]
      exact hclean
    · exact (h.clean j block hb).keeps hkeeps

def fillExit (draft : Draft) : Except Fault Draft :=
  match draft.returnSlot with
  | none => .ok ((draft.enter draft.function.exit).emit [.ret none])
  | some slot => do
    let ty ← draft.supply.symbols.typeOf slot.symbol
    let (value, supply) := draft.supply.temporary ty
    return { (draft.enter draft.function.exit).emit
      [.load value slot ty, .ret (some (.var value, ty))] with supply }

theorem finish_eq (draft : Draft) :
    draft.finish = (draft.jumpIfOpen draft.function.exit).fillExit := by
  rw [fillExit, exit_jumpIfOpen]
  rfl

variable {draft' : Draft}

theorem complete_of_fillExit (h : Stage.Sound ⟨[], draft, false⟩)
    (hfill : draft.fillExit = .ok draft') (hfit : draft'.supply.symbols.size ≤ UInt32.size) :
    draft'.function.Complete draft'.supply.symbols := by
  unfold fillExit at hfill
  split at hfill
  · cases hfill
    refine complete_of_sound h [] (by simp) (.refl _) ((Clean.label _).snoc_lasting ?_ ?_)
    · intro v hv
      cases hv
    · rintro _ ⟨⟩
  · rename_i slot hslot
    obtain ⟨ty, -, hfill⟩ := bind_eq_ok.1 hfill
    cases hfill
    refine complete_of_sound h [_] (by simp [Instruction.isPlain])
      (Supply.keeps_temporary _ ty) ?_
    have hload : Clean (draft.supply.temporary ty).2.symbols
        ([Instruction.label draft.function.exit] ++
          [Instruction.load (draft.supply.temporary ty).1 slot ty]) := by
      refine (Clean.label _).snoc_temporary hfit ?_ rfl
      intro v hv
      cases List.mem_singleton.1 hv
      exact .inl (h.slots slot (.inr hslot))
    refine hload.snoc_lasting ?_ ?_
    · intro v hv
      cases List.mem_singleton.1 hv
      exact .inr (mem_definitions_last rfl)
    · rintro _ ⟨⟩

/-- Lowering starts from an entry and an exit that have nothing but their labels. -/
theorem exists_of_ofSymbol {symbol : SymbolId} (h : Draft.ofSymbol table symbol = .ok draft) :
    ∃ name returnType, draft = { supply := { symbols := table }, current := 0
                                 function := { symbol, name, returnType, entry := 0, exit := 1
                                               blocks := .ofList [.labelled 0, .labelled 1] } } ∧
      ∀ {j block}, draft.function.block? j = some block →
        (j = 0 ∨ j = 1) ∧ block = .labelled j := by
  obtain ⟨f, hf, h⟩ := bind_eq_ok.1 h
  obtain ⟨⟨name, kind⟩, -, hf⟩ := bind_eq_ok.1 hf
  obtain ⟨returnType, -, hf⟩ := bind_eq_ok.1 hf
  cases hf
  cases h
  refine ⟨name, returnType, rfl, fun {j block} hb => ?_⟩
  match j with
  | 0 => exact ⟨.inl rfl, (Option.some.inj hb).symm⟩
  | 1 => exact ⟨.inr rfl, (Option.some.inj hb).symm⟩
  | j + 2 => simp [Function.block?, Arena.get?, Arena.ofList] at hb

theorem symbols_of_ofSymbol {symbol : SymbolId} (h : Draft.ofSymbol table symbol = .ok draft) :
    draft.supply.symbols = table := by
  obtain ⟨-, -, rfl, -⟩ := exists_of_ofSymbol h
  rfl

theorem sound_of_ofSymbol {symbol : SymbolId} (h : Draft.ofSymbol table symbol = .ok draft) :
    Stage.Sound ⟨[], draft, true⟩ := by
  obtain ⟨name, returnType, rfl, hblock⟩ := exists_of_ofSymbol h
  refine ⟨⟨Nat.zero_lt_two, by simp, ?_, ⟨_, rfl, [], by simp, rfl⟩, ?_, ?_⟩, ?_, ?_⟩
  · intro j hj
    cases List.mem_singleton.1 hj
    rfl
  · intro j block hb hj
    rcases (hblock hb).1 with rfl | rfl <;> simp at hj
  · intro j block n hb hn
    obtain ⟨-, rfl⟩ := hblock hb
    cases hn
  · intro j block hb
    obtain ⟨-, rfl⟩ := hblock hb
    exact Clean.label j
  · rintro v (hv | hv) <;> cases hv

theorem keeps_of_fillExit (h : draft.fillExit = .ok draft') :
    draft.supply.symbols.Keeps draft'.supply.symbols := by
  unfold fillExit at h
  split at h
  · cases h
    exact .refl _
  · obtain ⟨ty, -, h⟩ := bind_eq_ok.1 h
    cases h
    exact Supply.keeps_temporary ..

theorem size_of_fillExit (h : draft.fillExit = .ok draft') :
    draft'.function.blocks.size = draft.function.blocks.size := by
  unfold fillExit at h
  split at h
  · cases h
    exact Function.modifyBlock_size ..
  · obtain ⟨ty, -, h⟩ := bind_eq_ok.1 h
    cases h
    exact Function.modifyBlock_size ..

/-- A draft that fits is complete once its exit is filled. -/
theorem complete_of_finish {isOpen : Bool} (h : Stage.Sound ⟨[], draft, isOpen⟩)
    (hfinish : draft.finish = .ok draft') (hfit : draft'.supply.symbols.size ≤ UInt32.size) :
    draft'.function.Complete draft'.supply.symbols := by
  rw [finish_eq] at hfinish
  exact complete_of_fillExit (h.jumpIfOpen List.mem_cons_self) hfinish hfit

theorem keeps_of_finish (h : draft.finish = .ok draft') :
    draft.supply.symbols.Keeps draft'.supply.symbols := by
  rw [finish_eq] at h
  have hkeeps := keeps_of_fillExit h
  rwa [supply_jumpIfOpen] at hkeeps

theorem size_of_finish (h : draft.finish = .ok draft') :
    draft'.function.blocks.size = draft.function.blocks.size := by
  rw [finish_eq] at h
  rw [size_of_fillExit h, size_jumpIfOpen]

theorem keeps_declareReturn (draft : Draft) :
    draft.supply.symbols.Keeps draft.declareReturn.supply.symbols := by
  unfold declareReturn
  split
  · exact .refl _
  · exact SymbolTable.keeps_declareVariable ..

theorem size_declareReturn (draft : Draft) :
    draft.declareReturn.function.blocks.size = draft.function.blocks.size := by
  unfold declareReturn
  split
  · rfl
  · exact Function.modifyBlock_size ..

theorem sound_declareReturn (h : Stage.Sound ⟨[], draft, true⟩)
    (hfit : draft.declareReturn.supply.symbols.size ≤ UInt32.size) :
    Stage.Sound ⟨[], draft.declareReturn, true⟩ := by
  cases hty : draft.function.returnType with
  | none =>
    rw [declareReturn, hty]
    exact h
  | some ty => exact h.reserve hty hfit

section

variable {parameters : List (Parameter SymbolId)} {draft' : Draft}

theorem declareParameters_induction {P : Draft → Prop}
    (h : parameters.foldlM declareParameter draft = .ok draft') (hs : P draft)
    (hstep : ∀ (d : Draft) (p : Parameter SymbolId) (ty : Ty), p ∈ parameters →
      d.supply.symbols.type? p.symbol = some ty → P d → P (d.bindParameter p ty)) : P draft' := by
  induction parameters generalizing draft with
  | nil =>
    cases h
    exact hs
  | cons p rest ih =>
    obtain ⟨draft₁, hfirst, h⟩ := bind_eq_ok.1 h
    rw [declareParameter_eq] at hfirst
    obtain ⟨ty, hty, hfirst⟩ := bind_eq_ok.1 hfirst
    cases hfirst
    exact ih h (hstep draft p ty List.mem_cons_self (SymbolTable.typeOf_eq_ok.1 hty) hs)
      fun d q ty hq => hstep d q ty (List.mem_cons_of_mem _ hq)

theorem keeps_bindParameter (draft : Draft) (p : Parameter SymbolId) (ty : Ty) :
    draft.supply.symbols.Keeps (draft.bindParameter p ty).supply.symbols :=
  SymbolTable.keeps_declareVariable ..

theorem keeps_of_declareParameter (h : parameters.foldlM declareParameter draft = .ok draft') :
    draft.supply.symbols.Keeps draft'.supply.symbols :=
  declareParameters_induction (P := fun d => draft.supply.symbols.Keeps d.supply.symbols) h
    (.refl _) fun d p ty _ _ ih => ih.trans (d.keeps_bindParameter p ty)

theorem size_of_declareParameter (h : parameters.foldlM declareParameter draft = .ok draft') :
    draft'.function.blocks.size = draft.function.blocks.size :=
  declareParameters_induction (P := (·.function.blocks.size = draft.function.blocks.size)) h rfl
    fun _ _ _ _ _ ih => (Function.modifyBlock_size ..).trans ih

theorem declareParameter_of_get? {p : Parameter SymbolId}
    (h : draft.supply.symbols.get? p.symbol = some ⟨p.name.name, .var (some p.ty.ty) .parameter⟩) :
    draft.declareParameter p = .ok (draft.bindParameter p p.ty.ty) := by
  rw [declareParameter_eq,
    SymbolTable.typeOf_eq_ok.2 (SymbolTable.type?_eq_some.2 ⟨_, _, h⟩)]
  rfl

theorem sound_of_declareParameter (hkeeps : table.Keeps draft.supply.symbols)
    (hp : ∀ p ∈ parameters,
      table.get? p.symbol = some ⟨p.name.name, .var (some p.ty.ty) .parameter⟩)
    (h : parameters.foldlM declareParameter draft = .ok draft')
    (hfit : draft'.supply.symbols.size ≤ UInt32.size) (hs : Stage.Sound ⟨[], draft, true⟩) :
    Stage.Sound ⟨[], draft', true⟩ := by
  refine (declareParameters_induction (P := fun d => table.Keeps d.supply.symbols ∧
    (d.supply.symbols.size ≤ UInt32.size → Stage.Sound ⟨[], d, true⟩)) h ⟨hkeeps, fun _ => hs⟩ ?_).2
    hfit
  rintro d p ty hmem hty ⟨hkeeps, hs⟩
  have hget := hkeeps.get (hp p hmem)
  cases hty.symm.trans (SymbolTable.type?_eq_some.2 ⟨_, _, hget⟩)
  have hnext := d.keeps_bindParameter p p.ty.ty
  exact ⟨hkeeps.trans hnext, fun hfit => (hs (Nat.le_trans hnext.size_le hfit)).parameter hget hfit⟩

end

end Draft

end Flow

open Cinder.Flow

/-! ## Functions -/

namespace Definition

structure KnownIn (definition : Definition.Typed) (table : SymbolTable) : Prop where
  heading : definition.TypedIn table
  body : ∃ scope next, definition.body.Bound scope next ∧
    table.Locals next definition.body.declarations

variable {table table₀ : SymbolTable} {definition : Definition.Typed}
  {result : Function × SymbolTable}

/-- The drafts on the way to a function: without instructions, with its slots, with
its body, and complete. -/
structure Drafts (table : SymbolTable) (definition : Definition.Typed)
    (start opened last complete : Draft) : Prop where
  starts : Draft.ofSymbol table definition.symbol = .ok start
  opens : definition.parameters.foldlM Draft.declareParameter start.declareReturn = .ok opened
  lowers : definition.body.lower opened = .ok last
  finishes : last.finish = .ok complete

theorem drafts_of_lower (h : definition.lower table = .ok result) :
    ∃ start opened last complete, Drafts table definition start opened last complete ∧
      result = (complete.function, complete.supply.symbols) := by
  obtain ⟨start, hstart, h⟩ := bind_eq_ok.1 h
  obtain ⟨opened, hopened, h⟩ := bind_eq_ok.1 h
  obtain ⟨last, hlast, h⟩ := bind_eq_ok.1 h
  obtain ⟨complete, hcomplete, h⟩ := bind_eq_ok.1 h
  cases h
  exact ⟨start, opened, last, complete, ⟨hstart, hopened, hlast, hcomplete⟩, rfl⟩

namespace Drafts

variable {start opened last complete : Draft}
  (h : Drafts table definition start opened last complete)

include h

theorem keeps_opened : table.Keeps opened.supply.symbols := by
  have hreturn := start.keeps_declareReturn
  rw [Draft.symbols_of_ofSymbol h.starts] at hreturn
  exact hreturn.trans (Draft.keeps_of_declareParameter h.opens)

theorem keeps : table.Keeps complete.supply.symbols :=
  (h.keeps_opened.trans (Block.keeps_of_lower h.lowers)).trans (Draft.keeps_of_finish h.finishes)

variable (hknown : definition.KnownIn table₀) (hkeeps : table₀.Keeps table)

include hknown hkeeps

theorem sound_opened (hfit : opened.supply.symbols.size ≤ UInt32.size) :
    Stage.Sound ⟨[], opened, true⟩ := by
  have hsize := Nat.le_trans (Draft.keeps_of_declareParameter h.opens).size_le hfit
  have hreturn := start.keeps_declareReturn
  rw [Draft.symbols_of_ofSymbol h.starts] at hreturn
  exact Draft.sound_of_declareParameter (hkeeps.trans hreturn) hknown.heading.parameters h.opens
    hfit (Draft.sound_declareReturn (Draft.sound_of_ofSymbol h.starts) hsize)

theorem steps : ∃ isOpen, Stage.Steps 0 ⟨[], opened, true⟩ ⟨[], last, isOpen⟩ := by
  obtain ⟨scope, next, hbound, hlocals⟩ := hknown.body
  obtain ⟨isOpen, hsteps⟩ :=
    Block.steps_of_lower (hkeeps.trans h.keeps_opened) [] hbound hlocals h.lowers
  exact ⟨isOpen, Stage.Steps.mono (Nat.zero_le _) hsteps⟩

variable (hsymbols : complete.supply.symbols.size ≤ UInt32.size)
  (hblocks : complete.function.blocks.size ≤ UInt32.size)

include hsymbols hblocks

omit hknown hkeeps in
theorem fits (isOpen : Bool) : Stage.Fits ⟨[], last, isOpen⟩ :=
  ⟨Nat.le_trans (Draft.keeps_of_finish h.finishes).size_le hsymbols,
    Draft.size_of_finish h.finishes ▸ hblocks⟩

/-- The body is lowered in steps from a sound draft to one whose handles fit. -/
theorem staged :
    ∃ isOpen, Stage.Steps 0 ⟨[], opened, true⟩ ⟨[], last, isOpen⟩ ∧
      Stage.Fits ⟨[], last, isOpen⟩ ∧ opened.supply.symbols.size ≤ UInt32.size ∧
      Stage.Sound ⟨[], opened, true⟩ := by
  obtain ⟨isOpen, hsteps⟩ := h.steps hknown hkeeps
  have hfit := h.fits hsymbols hblocks isOpen
  have hopened := (Stage.Steps.fits hsteps hfit).symbols
  exact ⟨isOpen, hsteps, hfit, hopened, h.sound_opened hknown hkeeps hopened⟩

theorem completes :
    complete.function.Complete complete.supply.symbols := by
  obtain ⟨isOpen, hsteps, hfit, -, hopened⟩ := h.staged hknown hkeeps hsymbols hblocks
  exact Draft.complete_of_finish (Stage.Steps.sound hsteps hfit hopened) h.finishes hsymbols

end Drafts

theorem keeps_of_lower (h : definition.lower table = .ok result) : table.Keeps result.2 := by
  obtain ⟨start, opened, last, complete, hdrafts, rfl⟩ := drafts_of_lower h
  exact hdrafts.keeps

variable {definitions : List Definition.Typed}

theorem keeps_of_lowerAll {result : List Function × SymbolTable}
    (h : lowerAll table definitions = .ok result) :
    table.Keeps result.2 := by
  induction definitions generalizing table result with
  | nil =>
    cases h
    exact .refl _
  | cons d rest ih =>
    obtain ⟨⟨f, table₁⟩, hfirst, h⟩ := bind_eq_ok.1 h
    obtain ⟨⟨functions, table₂⟩, hrest, h⟩ := bind_eq_ok.1 h
    cases h
    have hkeeps : table₁.Keeps table₂ := ih hrest
    exact (keeps_of_lower hfirst).trans hkeeps

/-- Each function of a program and its flow graph, with the drafts on the way. -/
theorem drafts_of_lowerAll {result : List Function × SymbolTable}
    (h : lowerAll table definitions = .ok result) :
    List.Forall₂ (fun d f => ∃ before start opened last complete,
      table.Keeps before ∧ Drafts before d start opened last complete ∧ complete.function = f ∧
        complete.supply.symbols.Keeps result.2) definitions result.1 := by
  induction definitions generalizing table result with
  | nil =>
    cases h
    exact .nil
  | cons d rest ih =>
    obtain ⟨⟨f, table₁⟩, hfirst, h⟩ := bind_eq_ok.1 h
    obtain ⟨⟨functions, table₂⟩, hrest, h⟩ := bind_eq_ok.1 h
    cases h
    obtain ⟨start, opened, last, complete, hdrafts, hresult⟩ := drafts_of_lower hfirst
    cases hresult
    have hkeeps : table.Keeps complete.supply.symbols := hdrafts.keeps
    have hkeeps₂ : complete.supply.symbols.Keeps table₂ := keeps_of_lowerAll hrest
    refine .cons ⟨table, start, opened, last, complete, .refl _, hdrafts, rfl, hkeeps₂⟩
      ((ih hrest).imp ?_)
    rintro d f ⟨before, start', opened', last', complete', hbefore, hdrafts'⟩
    exact ⟨before, start', opened', last', complete', hkeeps.trans hbefore, hdrafts'⟩

theorem knownIn_of_boundAll {scope : Scope} {next : Nat} (hb : BoundAll scope next definitions)
    (ht : ∀ d ∈ definitions, d.TypedIn table)
    (hlocals : table.Locals next (declarationsAll definitions)) :
    ∀ d ∈ definitions, d.KnownIn table := by
  induction definitions generalizing next with
  | nil => nofun
  | cons d rest ih =>
    intro e he
    rcases List.mem_cons.1 he with rfl | he
    · exact ⟨ht e List.mem_cons_self, _, next, hb.1,
        hlocals.mono (Nat.le_refl _) (Nat.add_le_add_left (Nat.le_add_right ..) _)⟩
    · exact ih hb.2 (fun f hf => ht f (List.mem_cons_of_mem _ hf))
        (hlocals.mono (Nat.le_add_right ..) (Nat.le_of_eq (Nat.add_assoc ..))) e he

end Definition

/-! ## Modules -/

/-- All handles of a module are the positions they stand for. -/
structure Flow.Module.Addressable (m : Module) : Prop where
  symbols : m.symbols.size ≤ UInt32.size
  blocks : ∀ f ∈ m.functions, f.blocks.size ≤ UInt32.size

namespace Program

variable {program : Program.Typed} {table : SymbolTable} {m : Module}

theorem knownIn (hb : program.Bound) (ht : program.WellTyped table) :
    ∀ d ∈ program.functions, d.KnownIn table := by
  refine Definition.knownIn_of_boundAll hb.bodies ht.headings fun id hid hlt => ht.locals hid ?_
  rw [ht.size]
  exact hlt

theorem keeps_of_lower (h : program.lower table = .ok m) : table.Keeps m.symbols := by
  obtain ⟨⟨functions, table'⟩, hlower, h⟩ := bind_eq_ok.1 h
  cases h
  exact Definition.keeps_of_lowerAll hlower

theorem drafts_of_lower (h : program.lower table = .ok m) :
    List.Forall₂ (fun d f => ∃ before start opened last complete, table.Keeps before ∧
      Definition.Drafts before d start opened last complete ∧ complete.function = f ∧
        complete.supply.symbols.Keeps m.symbols) program.functions m.functions := by
  obtain ⟨⟨functions, table'⟩, hlower, h⟩ := bind_eq_ok.1 h
  cases h
  exact Definition.drafts_of_lowerAll hlower

theorem complete_of_lower (hb : program.Bound) (ht : program.WellTyped table)
    (h : program.lower table = .ok m) (hfit : m.Addressable) :
    ∀ f ∈ m.functions, f.Complete m.symbols := by
  intro f hf
  obtain ⟨d, hd, before, start, opened, last, complete, hbefore, hdrafts, rfl, hafter⟩ :=
    forall₂_exists_left (drafts_of_lower h) hf
  have hsymbols := Nat.le_trans hafter.size_le hfit.symbols
  exact (hdrafts.completes (knownIn hb ht d hd) hbefore hsymbols (hfit.blocks _ hf)).keeps hafter

/-- Lowering an accepted program gives functions that are well-formed. -/
theorem wellFormed_of_lower {text : String} (hsource : ofSource text = .ok (program, table))
    (h : program.lower table = .ok m) (hfit : m.Addressable) : m.WellFormed := by
  obtain ⟨hb, ht⟩ := wellTyped_of_ofSource hsource
    (Nat.le_trans (keeps_of_lower h).size_le hfit.symbols)
  exact fun f hf => (complete_of_lower hb ht h hfit f hf).wellFormed

end Program

end Cinder
