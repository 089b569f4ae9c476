import Cinder.Proofs.Compiler.Order
import Cinder.Proofs.Flow.Initialization

/-!
# Functions return what they have stored

A function with a return type stores in its return slot on every path from its entry to
its exit, whatever passes are run over it.  What else it may read without having stored in
it are its parameters and the variables that are declared without a value.
-/

namespace Cinder

namespace Flow

variable {table table₀ : SymbolTable} {exempt : Set Variable} {given : BlockId → Set Variable}

/-! ## Before and behind the body -/

theorem Function.provides_of_labelled {f : Function} (hentry : given f.entry = ∅)
    (hlabelled : ∀ {j block}, f.block? j = some block → block = .labelled j) :
    f.Provides table exempt given := by
  refine ⟨hentry, fun {j n v} hedge _ _ => ?_, fun {j block} hb => ?_⟩
  · obtain ⟨block, hb, hn⟩ := exists_block?_of_edge hedge
    rw [hlabelled hb] at hn
    cases hn
  · rw [hlabelled hb]
    exact readsStored_singleton rfl _

/-- The exit of a function with a return type is given the slot that it returns. -/
def Function.ReturnsGiven (table : SymbolTable) (given : BlockId → Set Variable) (f : Function) :
    Prop :=
  ∀ ty, f.returnType = some ty → ∃ slot value,
    table.get? slot.symbol = some ⟨"$ret", .var (some ty) .returnSlot⟩ ∧ slot ∈ given f.exit ∧
    f.block? f.exit = some (.returning f.exit value slot ty)

theorem Function.ReturnsGiven.rounds {f g : Function} (h : f.ReturnsGiven table given)
    (hf : f.Standard table) (hrounds : f.Rounds table g) : g.ReturnsGiven table given := by
  have hhead := (hf.rounds hrounds).2.head
  have hexit : g.exit = f.exit := by rw [← hhead]
  have hreturnType : g.returnType = f.returnType := by rw [← hhead]
  intro ty hty
  obtain ⟨slot, value, hget, hgiven, hblock⟩ := h ty (hreturnType.symm.trans hty)
  refine ⟨slot, value, hget, ?_, hf.wellFormed.returning_rounds hblock hrounds⟩
  rw [hexit]
  exact hgiven

namespace Draft

variable {draft draft' : Draft} {block : Block}

theorem exit_declareReturn (draft : Draft) :
    draft.declareReturn.function.exit = draft.function.exit := by
  unfold declareReturn
  split
  · rfl
  · exact Function.modifyBlock_exit ..

theorem Provides.declareReturn (h : draft.function.Provides table exempt given)
    (hb : draft.function.block? draft.current = some block)
    (hexit : ∀ v ∈ given draft.function.exit, draft.declareReturn.returnSlot = some v) :
    draft.declareReturn.Provides table exempt given := by
  refine ⟨?_, ?_⟩
  · unfold Draft.declareReturn
    split
    · exact h
    · exact h.modify hb rfl (readsStored_singleton rfl _) fun n hn => .inl hn
  · rw [exit_declareReturn]
    exact hexit

theorem Provides.bindParameter {p : Parameter SymbolId} (h : draft.Provides table exempt given)
    (hb : draft.function.block? draft.current = some block)
    (hp : { symbol := p.symbol } ∈ exempt) (ty : Ty) :
    (draft.bindParameter p ty).Provides table exempt given ∧
      draft.written given ⊆ (draft.bindParameter p ty).written given ∧
      { symbol := draft.supply.symbols.next } ∈ (draft.bindParameter p ty).written given := by
  let copy : List Instruction := [.alloca { symbol := draft.supply.symbols.next } ty,
    .store { symbol := draft.supply.symbols.next } (.var { symbol := p.symbol }) ty]
  have hreads : ReadsStored table (exempt ∪ draft.written given) copy := by
    refine ⟨(readsStored_singleton rfl _).1, fun v hv _ => ?_, trivial⟩
    cases List.mem_singleton.1 (Instruction.mem_uses.1 hv)
    exact .inl (.inl hp)
  have hextend := h.extend hb hreads draft.supply
  have hwritten : (draft.bindParameter p ty).written given = draft.written given ∪ stored copy :=
    written_extend hb copy draft.supply
  refine ⟨⟨⟨hextend.function.entry, hextend.function.edges, hextend.function.reads⟩, hextend.exit⟩,
    ?_, ?_⟩
  · rw [hwritten]
    exact Set.subset_union_left
  · rw [hwritten]
    exact .inr ⟨_, _, List.mem_cons_of_mem _ List.mem_cons_self⟩

theorem returnSlot_of_declareParameter {parameters : List (Parameter SymbolId)}
    (h : parameters.foldlM declareParameter draft = .ok draft') :
    draft'.returnSlot = draft.returnSlot :=
  declareParameters_induction (P := (·.returnSlot = draft.returnSlot)) h rfl fun _ _ _ _ _ ih => ih

theorem exists_frame_of_declareParameter {returnType : Option Ty} {next : Nat} (base : Scope)
    {parameters : List (Parameter SymbolId)} {frame : Cells}
    (hget : ∀ p ∈ parameters,
      table₀.get? p.symbol = some ⟨p.name.name, .var (some p.ty.ty) .parameter⟩)
    (hsymbols : ∀ p ∈ parameters, p.symbol < next)
    (hnodup : (parameters.map (·.symbol)).Nodup)
    (hne : ∀ p ∈ parameters, ∀ cell ∈ frame, cell.symbol ≠ p.symbol)
    (hexempt : ∀ p ∈ parameters, { symbol := p.symbol } ∈ exempt)
    (hlaid : frame.Laid table₀ returnType next ⟨[], draft, true⟩)
    (h : parameters.foldlM declareParameter draft = .ok draft')
    (hfit : draft'.supply.symbols.size ≤ UInt32.size)
    (hprovides : draft.Provides table exempt given)
    (hready : ∀ cell ∈ frame, cell.slot ∈ exempt ∪ draft.written given) :
    ∃ frame' : Cells, frame'.scope base = (frame.scope base).declareParameters parameters ∧
      frame'.Laid table₀ returnType next ⟨[], draft', true⟩ ∧
      draft'.Provides table exempt given ∧
      ∀ cell ∈ frame', cell.slot ∈ exempt ∪ draft'.written given := by
  induction parameters generalizing draft frame with
  | nil =>
    cases h
    exact ⟨frame, rfl, hlaid, hprovides, hready⟩
  | cons p rest ih =>
    obtain ⟨draft₁, hfirst, h⟩ := bind_eq_ok.1 h
    have hknown := hlaid.keeps.get (hget p List.mem_cons_self)
    rw [declareParameter_of_get? hknown] at hfirst
    cases hfirst
    have hfit₁ := Nat.le_trans (keeps_of_declareParameter h).size_le hfit
    have hlaid₁ := hlaid.parameter hknown hfit₁ (hsymbols p List.mem_cons_self)
      (hne p List.mem_cons_self)
    have hnext : draft.supply.symbols.next = draft.supply.symbols.size := by
      apply SymbolTable.next_eq
      rwa [size_bindParameter] at hfit₁
    obtain ⟨block, hb, -⟩ := hlaid.sound.shaped.shape
    obtain ⟨hprovides₁, hsub, hslot⟩ := hprovides.bindParameter hb
      (hexempt p List.mem_cons_self) p.ty.ty
    rw [hnext] at hslot
    obtain ⟨hfresh, hnodup⟩ := List.nodup_cons.1 hnodup
    refine ih (fun q hq => hget q (List.mem_cons_of_mem _ hq))
      (fun q hq => hsymbols q (List.mem_cons_of_mem _ hq)) hnodup
      (fun q hq => List.forall_mem_cons.2
        ⟨fun heq => hfresh (List.mem_map.2 ⟨q, hq, Eq.symm heq⟩),
          hne q (List.mem_cons_of_mem _ hq)⟩)
      (fun q hq => hexempt q (List.mem_cons_of_mem _ hq)) hlaid₁ h hprovides₁ ?_
    refine List.forall_mem_cons.2 ⟨.inr hslot, fun cell hcell => ?_⟩
    exact (hready cell hcell).imp_right fun hv => hsub hv

theorem Provides.fillExit (h : draft.Provides table exempt given)
    (hs : Stage.Sound ⟨[], draft, false⟩)
    (hslot : ∀ slot, draft.returnSlot = some slot → slot ∈ given draft.function.exit)
    (hfill : draft.fillExit = .ok draft') (hkeeps : draft'.supply.symbols.Keeps table)
    (hfit : table.size ≤ UInt32.size) : draft'.function.Provides table exempt given := by
  have hexit := hs.shaped.waiting _ List.mem_cons_self
  unfold Draft.fillExit at hfill
  split at hfill
  · cases hfill
    exact h.function.modify hexit rfl (readsStored_singleton rfl _) fun n hn => .inl hn
  · rename_i slot hsome
    obtain ⟨ty, -, hfill⟩ := bind_eq_ok.1 hfill
    cases hfill
    have htemporary := Supply.isTemporary_of_keeps hkeeps hfit
    refine h.function.modify hexit rfl ⟨fun v hv _ => ?_, fun v hv hlasting => ?_, trivial⟩
      fun n hn => .inl hn
    · cases List.mem_singleton.1 (Instruction.mem_uses.1 hv)
      exact .inr (.inl (hslot slot hsome))
    · cases List.mem_singleton.1 (Instruction.mem_uses.1 hv)
      cases htemporary.symm.trans hlasting

theorem returning_of_fillExit (hs : Stage.Sound ⟨[], draft, false⟩) {slot : Variable} {ty : Ty}
    (hslot : draft.returnSlot = some slot) (hty : draft.supply.symbols.typeOf slot.symbol = .ok ty)
    (hfill : draft.fillExit = .ok draft') :
    ∃ value, draft'.function.block? draft'.function.exit =
      some (.returning draft'.function.exit value slot ty) := by
  obtain ⟨l, hfunction, hl⟩ := exists_of_fillExit hfill
  have hexit : draft'.function.exit = draft.function.exit := by
    rw [hfunction, Function.modifyBlock_exit]
  have hb := hs.shaped.waiting draft.function.exit List.mem_cons_self
  rcases hl with ⟨hnone, -⟩ | ⟨slot', value, ty', hslot', hty', rfl⟩
  · cases hnone.symm.trans hslot
  · cases hslot.symm.trans hslot'
    cases hty.symm.trans hty'
    refine ⟨value, ?_⟩
    rw [hexit, hfunction, Function.block?_modifyBlock hb, if_pos rfl]
    rfl

/-- What is known of the return slot of a function with a return type. -/
theorem get?_declareReturn {ty : Ty} (hty : draft.function.returnType = some ty)
    (hfit : draft.declareReturn.supply.symbols.size ≤ UInt32.size) :
    ∃ slot, draft.declareReturn.returnSlot = some slot ∧
      draft.declareReturn.supply.symbols.get? slot.symbol =
        some ⟨"$ret", .var (some ty) .returnSlot⟩ := by
  have hsize : draft.declareReturn.supply.symbols.size = draft.supply.symbols.size + 1 := by
    rw [Draft.declareReturn, hty]
    exact SymbolTable.size_declareVariable ..
  rw [Draft.declareReturn, hty]
  exact ⟨_, rfl, Supply.get?_slot (by omega) "$ret" ty .returnSlot⟩

end Draft

end Flow

open Cinder.Flow

/-- What a function may read without having stored in it: its parameters, and the variables
that it declares without a value. -/
def Definition.unstored (table : SymbolTable) (definition : Definition.Typed) :
    Set Variable :=
  {v | v ∈ definition.parameters.map fun p => { symbol := p.symbol }} ∪
    Unset table definition.body.locals

namespace Definition.Drafts

variable {definition : Definition.Typed} {table before table₀ : SymbolTable}
  {start opened last complete : Draft} {base : Scope} {next : Nat}
  (h : Drafts before definition start opened last complete)
  (haccepted : definition.Accepted table₀ base next) (hkeeps : table₀.Keeps before)

include h haccepted hkeeps

/-- At the body of a function its parameters are in their slots.  The exit is to be given
the return slot. -/
theorem exists_given_opened (hopened : Stage.Becomes ⟨[], opened, true⟩ complete.function) :
    ∃ (given : BlockId → Set Variable) (frame : Cells),
      frame.scope base = base.declareParameters definition.parameters ∧
      frame.Laid table₀ (definition.returnType.map (·.ty)) next ⟨[], opened, true⟩ ∧
      opened.Provides table (definition.unstored table₀) given ∧
      (∀ cell ∈ frame, cell.slot ∈ definition.unstored table₀ ∪ opened.written given) ∧
      given opened.function.exit = {v | opened.returnSlot = some v} := by
  have hreserved := Draft.becomes_of_declareParameter h.opens hopened
  have hstart := h.start_eq haccepted hkeeps
  have hlabel : start.function.block? start.current = some (.labelled start.current) := by
    rw [hstart]
    rfl
  let given : BlockId → Set Variable := fun j =>
    if j = start.function.exit then {v | start.declareReturn.returnSlot = some v} else ∅
  have hexit : given start.function.exit = _ := if_pos rfl
  have hprovides : start.function.Provides table (definition.unstored table₀) given := by
    apply Function.provides_of_labelled
    · have hne : start.function.entry ≠ start.function.exit := by
        rw [hstart]
        exact Nat.zero_ne_one
      exact if_neg hne
    · intro j block hb
      rw [hstart] at hb
      match j with
      | 0 | 1 =>
        cases hb
        rfl
  have hdeclared := Draft.Provides.declareReturn hprovides hlabel hexit.subset
  have hlaid := h.laid_declareReturn haccepted hkeeps hreserved.fits.symbols
  obtain ⟨frame, hscope, hlaid, hprovides, hready⟩ := Draft.exists_frame_of_declareParameter base
    haccepted.heading.parameters haccepted.symbols haccepted.nodup (by simp)
    (fun p hp => .inl (List.mem_map.2 ⟨p, hp, rfl⟩)) hlaid h.opens hopened.fits.symbols hdeclared
    (by simp)
  refine ⟨given, frame, hscope, hlaid, hprovides, hready, ?_⟩
  have hsame : opened.function.exit = start.function.exit := calc
    opened.function.exit = complete.function.exit := hopened.grows.exit.symm
    _ = start.declareReturn.function.exit := hreserved.grows.exit
    _ = start.function.exit := start.exit_declareReturn
  rw [hsame, hexit, Draft.returnSlot_of_declareParameter h.opens]

/-- The exit of a function with a return type returns what is in the return slot. -/
theorem exists_returning (hsymbols : complete.supply.symbols.size ≤ UInt32.size)
    (hblocks : complete.function.blocks.size ≤ UInt32.size) {ty : Ty}
    (hty : complete.function.returnType = some ty) :
    ∃ slot value, last.returnSlot = some slot ∧
      complete.supply.symbols.get? slot.symbol = some ⟨"$ret", .var (some ty) .returnSlot⟩ ∧
      complete.function.block? complete.function.exit =
        some (.returning complete.function.exit value slot ty) := by
  obtain ⟨isOpen, hsound, hsteps, hopened, -, -⟩ :=
    h.exists_steps haccepted hkeeps hsymbols hblocks
  have hreserved := Draft.becomes_of_declareParameter h.opens hopened
  have hreturnType : start.function.returnType = some ty := by
    have hheading := h.heading_complete haccepted hkeeps
    simp only [Function.heading, Prod.mk.injEq] at hheading
    rw [h.start_eq haccepted hkeeps, ← hty, hheading.2.2.1]
  obtain ⟨slot, hslot, hget⟩ := Draft.get?_declareReturn hreturnType hreserved.fits.symbols
  have hlast : last.returnSlot = some slot := calc
    last.returnSlot = opened.returnSlot := hsteps.returnSlot
    _ = start.declareReturn.returnSlot := Draft.returnSlot_of_declareParameter h.opens
    _ = some slot := hslot
  have hget := ((Draft.keeps_of_declareParameter h.opens).trans hsteps.keeps).get hget
  have htype : (last.jumpIfOpen last.function.exit).supply.symbols.typeOf slot.symbol = .ok ty := by
    rw [Draft.supply_jumpIfOpen]
    exact SymbolTable.typeOf_eq_ok.2 (SymbolTable.type?_eq_some.2 ⟨_, _, hget⟩)
  have hfill := h.finishes
  rw [Draft.finish_eq] at hfill
  obtain ⟨value, hblock⟩ := Draft.returning_of_fillExit (hsound.jumpIfOpen List.mem_cons_self)
    ((Draft.returnSlot_jumpIfOpen ..).trans hlast) htype hfill
  exact ⟨slot, value, hlast, (Draft.keeps_of_finish h.finishes).get hget, hblock⟩

/-- A function is lowered to one that reads what it has stored, and gets to its exit with a
value in its return slot. -/
theorem exists_provides (houtside : ∀ name symbol, base.find? name ≠ some (.var symbol))
    (hafter : complete.supply.symbols.Keeps table) (hsymbols : table.size ≤ UInt32.size)
    (hblocks : complete.function.blocks.size ≤ UInt32.size) :
    ∃ given, complete.function.Provides table (definition.unstored table₀) given ∧
      complete.function.ReturnsGiven table given := by
  have hsize := Nat.le_trans hafter.size_le hsymbols
  obtain ⟨isOpen, hsound, hsteps, hopened, hlast, -⟩ :=
    h.exists_steps haccepted hkeeps hsize hblocks
  obtain ⟨given, frame, hscope, hlaid, hprovides, hready, hexit⟩ :=
    h.exists_given_opened haccepted hkeeps hopened
  have hbound := haccepted.bound
  rw [← hscope] at hbound
  have hfill := h.finishes
  have hkeepsLast := Draft.keeps_of_finish hfill
  obtain ⟨given', hadvances, hbehind⟩ := Block.prepares hsymbols houtside hbound haccepted.typed
    haccepted.locals Set.subset_union_right [] opened last given hlaid h.lowers hlast.fits
    (hkeepsLast.trans hafter) hprovides hready
  have hreturnSlot : last.returnSlot = opened.returnSlot := hsteps.returnSlot
  -- the exit is still to be given the return slot
  have hexit' : given' last.function.exit = {v | last.returnSlot = some v} := by
    have hsame : last.function.exit = opened.function.exit :=
      hlast.grows.exit.symm.trans hopened.grows.exit
    have hwaiting := hlaid.sound.shaped.waiting _ List.mem_cons_self
    rw [hsame, hreturnSlot, ← hexit]
    exact hadvances.same _ (Function.lt_size_of_block? hwaiting)
  have hwritten : last.isTerminated = false →
      given' last.function.exit ⊆ last.written given' := by
    intro hopen v hv
    rw [hexit', hreturnSlot] at hv
    refine (hbehind hopen).2 (haccepted.returns ?_) v hv
    by_contra htype
    rw [Option.not_isSome_iff_eq_none] at htype
    have hnone : opened.returnSlot = none := hlaid.returns (by rw [htype, Option.map_none])
    cases hnone.symm.trans hv
  obtain ⟨block, hb, -⟩ := hsound.shaped.shape
  have hjump := hadvances.provides.jumpIfOpen hb hwritten
  have hsound' := hsound.jumpIfOpen List.mem_cons_self
  rw [Draft.finish_eq] at hfill
  refine ⟨given', hjump.fillExit hsound' ?_ hfill hafter hsymbols, fun ty hty => ?_⟩
  · intro slot hslot
    rw [Draft.returnSlot_jumpIfOpen] at hslot
    rw [Draft.exit_jumpIfOpen, hexit']
    exact hslot
  · obtain ⟨slot, value, hslot, hget, hblock⟩ :=
      h.exists_returning haccepted hkeeps hsize hblocks hty
    refine ⟨slot, value, hafter.get hget, ?_, hblock⟩
    rw [hlast.grows.exit, hexit']
    exact hslot

end Definition.Drafts

/-! ## Programs -/

section

variable {definition : Definition.Typed} {table table₀ : SymbolTable}

theorem Flow.Unset.keeps (hkeeps : table₀.Keeps table)
    (locals : List (Local SymbolId (Option Ty))) : Unset table₀ locals ⊆ Unset table locals := by
  rintro v ⟨decl, hdecl, hinit, hv, name, ty, hget⟩
  exact ⟨decl, hdecl, hinit, hv, name, ty, hkeeps.get hget⟩

/-- A return slot is neither a parameter nor declared in the source. -/
theorem Definition.notMem_unstored {slot : Variable} {name : String} {ty : Option Ty}
    (hheading : definition.TypedIn table₀) (hkeeps : table₀.Keeps table)
    (hslot : table.get? slot.symbol = some ⟨name, .var ty .returnSlot⟩) :
    slot ∉ definition.unstored table₀ := by
  rintro (hmem | ⟨decl, -, -, rfl, name', ty', hget⟩)
  · obtain ⟨p, hp, rfl⟩ := List.mem_map.1 hmem
    cases hslot.symm.trans (hkeeps.get (hheading.parameters p hp))
  · cases hslot.symm.trans (hkeeps.get hget)

/-- What is live at the entry of a flow graph is a parameter, or a variable that the source
declares without a value.  With a return type, the graph returns what is in its return slot,
and has stored in it on every path from its entry to its exit. -/
structure Definition.Initializes (definition : Definition SymbolId (Option Ty))
    (table : SymbolTable) (f : Function) (live : VariableSet) : Prop where
  parameters : f.parameters = definition.parameters.map fun p => { symbol := p.symbol }
  returnType : f.returnType = definition.returnType.map (·.ty)
  allowed : ∀ v ∈ live, v ∈ f.parameters ∨ v ∈ Unset table definition.body.locals
  returnSlot : ∀ ty, f.returnType = some ty → ∃ slot value,
    table.get? slot.symbol = some ⟨"$ret", .var (some ty) .returnSlot⟩ ∧
    f.block? f.exit = some (.returning f.exit value slot ty) ∧ slot ∉ live ∧
    ∀ path : List BlockId, path.IsChain f.Edge → path.head? = some f.entry →
      path.getLast? = some f.exit → ∃ id ∈ path, ∃ operand ty',
        .store slot operand ty' ∈ f.instructionsOf id

theorem Definition.initializes_of_provides {f : Function} {given : BlockId → Set Variable}
    {entering leaving : BlockId → VariableSet}
    (hheading : definition.TypedIn table₀) (hkeeps : table₀.Keeps table) (hf : f.Standard table)
    (hparameters : f.parameters = definition.parameters.map fun p => { symbol := p.symbol })
    (hreturnType : f.returnType = definition.returnType.map (·.ty))
    (h : f.Provides table (definition.unstored table₀) given) (hl : f.Lives entering leaving)
    (hreturns : f.ReturnsGiven table given) :
    definition.Initializes table f (entering f.entry) := by
  have hexempt : ∀ v ∈ entering f.entry, v ∈ definition.unstored table₀ := fun v hv =>
    h.exempt_of_live hf.acyclic hf.wellFormed.tidied hl hv
  refine ⟨hparameters, hreturnType, fun v hv => ?_, fun ty hty => ?_⟩
  · rw [hparameters]
    exact (hexempt v hv).imp_right fun hv => Unset.keeps hkeeps _ hv
  · obtain ⟨slot, value, hget, hgiven, hblock⟩ := hreturns ty hty
    refine ⟨slot, value, hget, hblock, ?_, ?_⟩
    · exact fun hv => notMem_unstored hheading hkeeps hget (hexempt slot hv)
    · intro path hpath hhead hlast
      obtain ⟨rest, rfl⟩ := List.head?_eq_some_iff.1 hhead
      have hlasting : table.isTemporary slot.symbol = false := by
        rw [SymbolTable.isTemporary, hget]
      refine (h.mem_of_path hpath hlast hgiven hlasting).resolve_left ?_
      rw [h.entry]
      exact Set.notMem_empty slot

end

/-- Lowering an accepted program gives functions that read what they have stored, and so
they do after any rounds. -/
theorem Program.initializes_of_lower {program : Program.Typed} {table : SymbolTable} {m : Module}
    (hb : program.Bound) (ht : program.WellTyped table) (h : program.lower table = .ok m)
    (hfit : m.Addressable) (hstandard : m.Standard) :
    List.Forall₂ (fun d f => ∀ g, f.Rounds m.symbols g → ∃ states live,
      g.blockLiveness = .ok states ∧ states.inputs.get? g.entry = some live ∧
        d.Initializes m.symbols g live) program.functions m.functions := by
  refine forall₂_imp_of_mem ?_ (drafts_of_lower h)
  rintro d f hd hf ⟨before, start, opened, last, complete, hbefore, hdrafts, rfl, hafter⟩ g hrounds
  obtain ⟨first, haccepted⟩ := accepted hb ht d hd
  obtain ⟨given, hprovides, hreturns⟩ := hdrafts.exists_provides haccepted hbefore
    (Signature.find?_scope_ne_var _) hafter hfit.symbols (hfit.blocks _ hf)
  have hf := hstandard _ hf
  obtain ⟨hg, halike⟩ := hf.rounds hrounds
  have hheading := hdrafts.heading_complete haccepted hbefore
  simp only [Function.heading, Prod.mk.injEq] at hheading
  obtain ⟨-, -, hreturnType, hparameters, -⟩ := hheading
  have hlinked := hg.wellFormed.linked
  obtain ⟨states, entering, leaving, hsolve, hlives, hsets⟩ := hlinked.enclosed.exists_blockLiveness
  refine ⟨states, entering g.entry, hsolve, (hsets _ hlinked.entry).1, ?_⟩
  apply Definition.initializes_of_provides haccepted.heading (keeps_of_lower h) hg _ _
    (hprovides.rounds hf.wellFormed hrounds) hlives (hreturns.rounds hf hrounds)
  · rw [← halike.head]
    exact hparameters
  · rw [← halike.head]
    exact hreturnType

/-- An accepted program can be lowered and optimized with any passes.  In each of its
functions, no variable is read before it has a value but those the source declares without
one, and a function with a return type never returns a slot it has not stored in. -/
theorem Program.exists_initializes {text : String} {program : Program.Typed}
    {table : SymbolTable} (hsource : Program.ofSource text = .ok (program, table))
    (hfit : program.Addressable table) :
    ∃ m, program.lower table = .ok m ∧ ∀ passes : List Pass,
      ∃ o, m.optimize passes = .ok o ∧
        List.Forall₂ (fun d f => ∃ states live, f.blockLiveness = .ok states ∧
          states.inputs.get? f.entry = some live ∧ d.Initializes o.result.symbols f live)
          program.functions o.result.functions := by
  obtain ⟨m, hlower, hm, hproper⟩ := Program.exists_lower hsource hfit
  have hstandard := Program.standard_of_lower hsource hlower hm hproper
  have hlinked : m.Linked := fun f hf => (hstandard f hf).wellFormed.linked
  obtain ⟨hb, ht⟩ := wellTyped_of_ofSource hsource (Nat.le_trans (Nat.le_add_right ..) hfit)
  have hinitializes := Program.initializes_of_lower hb ht hlower hm hstandard
  refine ⟨m, hlower, fun passes => ?_⟩
  obtain ⟨o, ho, hsymbols, hrounds⟩ := hlinked.exists_optimize passes
  refine ⟨o, ho, ?_⟩
  rw [hsymbols]
  exact forall₂_trans (fun h hround => h _ hround) hinitializes hrounds

/-- A function that reads a variable declared without a value, and returns from within a
conditional statement. -/
def unset : String :=
  "fun f(x @u8) @u8:\n    var y @u8\n    if 1 < 2:\n        return y\n    return x\n"

/-- The parameter and the variable without a value are live at the entry, and no other. -/
theorem Program.exists_initializes_unset :
    ∃ program table m o d f states live, Program.ofSource unset = .ok (program, table) ∧
      program.Addressable table ∧ program.lower table = .ok m ∧
      m.optimize Pass.all = .ok o ∧ o.rounds = 3 ∧ program.functions = [d] ∧
      o.result.functions = [f] ∧ f.blockLiveness = .ok states ∧
      states.inputs.get? f.entry = some live ∧ live.toList.map (·.symbol) = [1, 2] ∧
      d.Initializes o.result.symbols f live := by
  have hrun : (Program.examine unset fun _ m => (m.optimize Pass.all).toOption.map fun o =>
      (o.rounds, o.result.functions.map fun f => f.blockLiveness.toOption.bind fun states =>
        (states.inputs.get? f.entry).map fun live => live.toList.map (·.symbol))) =
      some (14, 3, [some [1, 2]]) := by
    rw [Program.examine, Program.ofSource, Program.parse, unset, tokenize_ofList]
    decide +kernel
  obtain ⟨program, table, m, hsource, hfit, hlower, -, hrun⟩ :=
    Program.exists_of_examine hrun (by decide)
  obtain ⟨o, ho, hrun⟩ := Option.map_eq_some_iff.1 hrun
  simp only [Prod.mk.injEq] at hrun
  obtain ⟨hrounds, hfunctions⟩ := hrun
  obtain ⟨f, hf, hlive⟩ := List.map_eq_singleton_iff.1 hfunctions
  obtain ⟨states, hstates, hlive⟩ := Option.bind_eq_some_iff.1 hlive
  obtain ⟨live, hget, hlive⟩ := Option.map_eq_some_iff.1 hlive
  rw [toOption_eq_some] at ho hstates
  obtain ⟨m', hlower', h⟩ := Program.exists_initializes hsource hfit
  cases hlower.symm.trans hlower'
  obtain ⟨o', ho', h⟩ := h Pass.all
  cases ho.symm.trans ho'
  rw [hf] at h
  obtain ⟨d, rest, ⟨states', live', hstates', hget', hinitializes⟩, hrest, hd⟩ :=
    List.forall₂_cons_right_iff.1 h
  cases List.forall₂_nil_right_iff.1 hrest
  cases hstates.symm.trans hstates'
  cases hget.symm.trans hget'
  exact ⟨program, table, m, o, d, f, states, live, hsource, hfit, hlower, ho, hrounds, hd, hf,
    hstates, hget, hlive, hinitializes⟩

end Cinder
