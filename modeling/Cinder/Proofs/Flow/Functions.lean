import Cinder.Proofs.Flow.Statements

/-!
# Code of functions

A lowered function copies its parameters into their slots, does what its body does,
and returns what is in the return slot.
-/

namespace Cinder.Flow

/-! ## Headings -/

def Function.heading (f : Function) : SymbolId × String × Option Ty × List Variable × BlockId :=
  (f.symbol, f.name, f.returnType, f.parameters, f.entry)

theorem Function.heading_modifyBlock (f : Function) (id : BlockId) (change : Block → Block) :
    (f.modifyBlock id change).heading = f.heading := by
  rcases f.modifyBlock_cases id change with h | ⟨block, -, h⟩ <;> rw [h]
  rfl

namespace Draft

theorem heading_jump (draft : Draft) (target : BlockId) :
    (draft.jump target).function.heading = draft.function.heading := by
  rw [function_jump, Function.heading_modifyBlock]

theorem heading_jumpIfOpen (draft : Draft) (target : BlockId) :
    (draft.jumpIfOpen target).function.heading = draft.function.heading := by
  rw [jumpIfOpen]
  split
  · rfl
  · exact draft.heading_jump target

theorem heading_fork (draft : Draft) (condition : Operand) :
    (draft.fork condition).function.heading = draft.function.heading := by
  simp only [fork, enter, function_split, Function.heading_modifyBlock]
  rfl

end Draft

namespace Stage

theorem Step.heading {first : Nat} {s s' : Stage} (h : Stage.Step first s s') :
    s'.draft.function.heading = s.draft.function.heading := by
  cases h with
  | declare hfirst h => exact Function.heading_modifyBlock ..
  | extend h => exact Function.heading_modifyBlock ..
  | leave => exact Draft.heading_jump ..
  | fork h hcondition => exact (Draft.heading_fork ..).trans (Function.heading_modifyBlock ..)
  | join h => exact Draft.heading_jumpIfOpen ..

theorem Steps.heading {first : Nat} {s s' : Stage} (h : Stage.Steps first s s') :
    s'.draft.function.heading = s.draft.function.heading := by
  induction h with
  | refl => rfl
  | tail _ h ih => exact h.heading.trans ih

end Stage

/-! ## The exit -/

namespace Draft

variable {draft draft' : Draft}

theorem exists_of_fillExit (h : draft.fillExit = .ok draft') :
    ∃ l, draft'.function = draft.function.modifyBlock draft.function.exit (fun block =>
        { block with instructions := block.instructions ++ l }) ∧
      (draft.returnSlot = none ∧ l = [.ret none] ∨ ∃ slot v ty, draft.returnSlot = some slot ∧
        draft.supply.symbols.typeOf slot.symbol = .ok ty ∧
        l = [.load v slot ty, .ret (some (.var v, ty))]) := by
  unfold fillExit at h
  split at h
  · rename_i hslot
    cases h
    exact ⟨_, rfl, .inl ⟨hslot, rfl⟩⟩
  · rename_i slot hslot
    obtain ⟨ty, hty, h⟩ := bind_eq_ok.1 h
    cases h
    exact ⟨_, rfl, .inr ⟨slot, _, ty, hslot, hty, rfl⟩⟩

theorem heading_of_fillExit (h : draft.fillExit = .ok draft') :
    draft'.function.heading = draft.function.heading := by
  obtain ⟨l, hfunction, -⟩ := exists_of_fillExit h
  rw [hfunction, Function.heading_modifyBlock]

theorem growsInto_of_fillExit (h : draft.fillExit = .ok draft') :
    Stage.GrowsInto ⟨[], draft, false⟩ draft'.function := by
  obtain ⟨l, hfunction, -⟩ := exists_of_fillExit h
  rw [hfunction]
  have hgrows : draft.function.GrowsAt draft.function.exit
      (draft.function.modifyBlock draft.function.exit fun block =>
        { block with instructions := block.instructions ++ l }) :=
    .modify _ _ fun _ => List.prefix_append ..
  refine ⟨Function.modifyBlock_exit .., fun {j block} hb => ?_⟩
  obtain ⟨block', hb', hprefix, hsame⟩ := hgrows j block hb
  exact ⟨block', hb', hprefix, fun hj => hsame (by simpa using hj.1)⟩

theorem returns_of_fillExit (calls : Calls) (hs : Stage.Sound ⟨[], draft, false⟩)
    (h : draft.fillExit = .ok draft') (env : Env) :
    ∃ s, Goes calls draft'.function (draft'.function.arrive draft'.function.exit env) s ∧
      s.block = draft'.function.exit ∧ s.Returns (draft.returnSlot.map env) := by
  obtain ⟨l, hfunction, hl⟩ := exists_of_fillExit h
  have hexit : draft'.function.exit = draft.function.exit := by
    rw [hfunction, Function.modifyBlock_exit]
  have hb := hs.shaped.waiting draft.function.exit List.mem_cons_self
  have hb' : draft'.function.block? draft.function.exit =
      some ⟨.label draft.function.exit :: l, none, none⟩ := by
    rw [hfunction, Function.block?_modifyBlock hb, if_pos rfl]
    rfl
  have harrive : draft'.function.arrive draft'.function.exit env =
      ⟨draft'.function.exit, l, env⟩ := by
    rw [hexit, Function.arrive, Function.instructionsOf_of_block? hb']
    rfl
  rw [harrive]
  rcases hl with ⟨hslot, rfl⟩ | ⟨slot, v, ty, hslot, -, rfl⟩
  · exact ⟨_, .refl .., rfl, none, [], rfl, by rw [hslot]; rfl⟩
  · refine ⟨_, .step (.plain rfl), rfl, some (.var v, ty), [], rfl, ?_⟩
    rw [hslot]
    exact congrArg some (Env.set_self ..).symm

end Draft

/-! ## Parameters -/

namespace Draft

variable {draft draft' : Draft} {f : Function} {calls : Calls}

/-- Code behind the label of the entry belongs to the function in the end. -/
theorem becomes_of_extend (draft : Draft) {l : List Instruction} {supply : Supply}
    {parameters : List Variable} {slots : Slots} {returnSlot : Option Variable}
    (hkeeps : draft.supply.symbols.Keeps supply.symbols)
    (h : Stage.Becomes ⟨[],
      { draft.extend l supply with
        function := { (draft.extend l supply).function with parameters }, slots, returnSlot },
      true⟩ f) :
    Stage.Becomes ⟨[], draft.extend l supply, true⟩ f ∧ Stage.Becomes ⟨[], draft, true⟩ f := by
  have hextend : Stage.Becomes ⟨[], draft.extend l supply, true⟩ f :=
    ⟨⟨h.fits.symbols, h.fits.blocks⟩, ⟨h.grows.exit, h.grows.blocks⟩⟩
  refine ⟨hextend, ⟨?_, ?_⟩, hextend.grows.of_extend⟩
  · exact Nat.le_trans hkeeps.size_le hextend.fits.symbols
  · have hsize : (draft.extend l supply).function.blocks.size = draft.function.blocks.size :=
      Function.modifyBlock_size ..
    rw [← hsize]
    exact hextend.fits.blocks

theorem size_bindParameter (draft : Draft) (parameter : Parameter SymbolId) (ty : Ty) :
    (draft.bindParameter parameter ty).supply.symbols.size = draft.supply.symbols.size + 1 :=
  SymbolTable.size_declareVariable ..

theorem goes_bindParameter {parameter : Parameter SymbolId} {ty : Ty}
    (hs : Stage.Sound ⟨[], draft, true⟩)
    (hf : Stage.Becomes ⟨[], draft.bindParameter parameter ty, true⟩ f) (env : Env) :
    Goes calls f (draft.reached f env) ((draft.bindParameter parameter ty).reached f
      (env.set { symbol := draft.supply.symbols.next } (env { symbol := parameter.symbol }))) := by
  have hf := (becomes_of_extend draft (SymbolTable.keeps_declareVariable ..) hf).1
  exact Goes.extend hs hf.grows ((Computes.alloca calls f _ ty 0 env).store _ _ _)

end Draft

namespace Cells

variable {table : SymbolTable} {returnType : Option Ty} {frame : Cells} {next : Nat} {draft : Draft}

theorem Laid.parameter {p : Parameter SymbolId}
    (h : Laid table returnType frame next ⟨[], draft, true⟩)
    (hget : draft.supply.symbols.get? p.symbol = some ⟨p.name.name, .var (some p.ty.ty) .parameter⟩)
    (hfit : (draft.bindParameter p p.ty.ty).supply.symbols.size ≤ UInt32.size)
    (hsymbol : p.symbol < next) (hne : ∀ cell ∈ frame, cell.symbol ≠ p.symbol) :
    Laid table returnType
      (⟨p.name.name, p.symbol, { symbol := draft.supply.symbols.size }⟩ :: frame) next
      ⟨[], draft.bindParameter p p.ty.ty, true⟩ := by
  have hnext : draft.supply.symbols.next = draft.supply.symbols.size := by
    rw [Draft.size_bindParameter] at hfit
    exact SymbolTable.next_eq hfit
  have hslots : (draft.bindParameter p p.ty.ty).slots =
      (p.symbol, { symbol := draft.supply.symbols.size }) :: draft.slots := by
    rw [← hnext]
    rfl
  refine ⟨h.keeps.trans (SymbolTable.keeps_declareVariable ..), h.sound.parameter hget hfit,
    h.returns, ?_, ?_, ?_, ?_⟩
  · refine List.forall_mem_cons.2 ⟨?_, fun cell hmem => ?_⟩
    · simp only [hslots, List.lookup_cons, beq_self_eq_true]
    · simp only [hslots, List.lookup_cons, beq_false_of_ne (hne cell hmem)]
      exact h.slots cell hmem
  · exact List.forall_mem_cons.2 ⟨hsymbol, h.symbols⟩
  · exact List.forall_mem_cons.2 ⟨.inr h.keeps.size_le, h.apart⟩
  · refine List.nodup_cons.2 ⟨fun hmem => ?_, h.nodup⟩
    obtain ⟨cell, hcell, hslot⟩ := List.mem_map.1 hmem
    exact Nat.ne_of_lt (h.known cell hcell) (congrArg Variable.symbol hslot)

end Cells

namespace Draft

variable {draft draft' : Draft} {f : Function} {calls : Calls} {table : SymbolTable}
  {returnType : Option Ty} {next : Nat}

theorem becomes_of_declareParameter {parameters : List (Parameter SymbolId)}
    (h : parameters.foldlM declareParameter draft = .ok draft')
    (hf : Stage.Becomes ⟨[], draft', true⟩ f) : Stage.Becomes ⟨[], draft, true⟩ f := by
  refine declareParameters_induction
    (P := fun d => Stage.Becomes ⟨[], d, true⟩ f → Stage.Becomes ⟨[], draft, true⟩ f) h id ?_ hf
  exact fun d p ty _ _ ih hf => ih (becomes_of_extend d (d.keeps_bindParameter p ty) hf).2

/-- The prologue of a function puts the arguments into the slots of the
parameters. -/
theorem goes_of_declareParameter (calls : Calls) (base : Scope)
    {parameters : List (Parameter SymbolId)}
    {frame : Cells} {locals locals' : Locals} {arguments : List Constant} {env : Env}
    (hget : ∀ p ∈ parameters,
      table.get? p.symbol = some ⟨p.name.name, .var (some p.ty.ty) .parameter⟩)
    (hsymbols : ∀ p ∈ parameters, p.symbol < next)
    (hnodup : (parameters.map (·.symbol)).Nodup)
    (hne : ∀ p ∈ parameters, ∀ cell ∈ frame, cell.symbol ≠ p.symbol)
    (hlaid : frame.Laid table returnType next ⟨[], draft, true⟩)
    (h : parameters.foldlM declareParameter draft = .ok draft')
    (hf : Stage.Becomes ⟨[], draft', true⟩ f) (hheld : Cells.Holds env frame locals)
    (harguments : locals.ofArguments parameters arguments = some locals')
    (henv : List.Forall₂ (fun p c => env { symbol := p.symbol } = c) parameters arguments) :
    ∃ env' frame', Goes calls f (draft.reached f env) (draft'.reached f env') ∧
      Cells.scope frame' base = (frame.scope base).declareParameters parameters ∧
      frame'.Laid table returnType next ⟨[], draft', true⟩ ∧ Cells.Holds env' frame' locals' := by
  induction parameters generalizing draft frame locals env arguments with
  | nil =>
    cases henv
    cases h
    cases harguments
    exact ⟨env, frame, .refl .., rfl, hlaid, hheld⟩
  | cons p rest ih =>
    cases henv with
    | @cons _ first _ cs hvalue henv =>
      obtain ⟨draft₁, hfirst, h⟩ := bind_eq_ok.1 h
      have hknown := hlaid.keeps.get (hget p List.mem_cons_self)
      rw [declareParameter_of_get? hknown] at hfirst
      cases hfirst
      have hf₁ := becomes_of_declareParameter h hf
      have hlaid₁ := hlaid.parameter hknown hf₁.fits.symbols (hsymbols p List.mem_cons_self)
        (hne p List.mem_cons_self)
      obtain ⟨hfresh, hnodup⟩ := List.nodup_cons.1 hnodup
      have hnext : draft.supply.symbols.next = draft.supply.symbols.size := by
        have hfit := hf₁.fits.symbols
        rw [size_bindParameter] at hfit
        exact SymbolTable.next_eq hfit
      have hgoes : Goes calls f _ _ := goes_bindParameter hlaid.sound hf₁ env
      rw [hnext, hvalue] at hgoes
      have hheld₁ : Cells.Holds (env.set { symbol := draft.supply.symbols.size } first)
          (⟨p.name.name, p.symbol, { symbol := draft.supply.symbols.size }⟩ :: frame)
          ((p.name.name, some first) :: locals) := by
        refine .cons ⟨rfl, ?_⟩ (hheld.congr fun cell hmem => Env.set_of_ne _ _ fun heq => ?_)
        · rintro _ ⟨⟩
          exact Env.set_self ..
        · exact Nat.ne_of_lt (hlaid.known cell hmem) (congrArg Variable.symbol heq)
      have henv₁ : List.Forall₂ (fun p c =>
          env.set { symbol := draft.supply.symbols.size } first { symbol := p.symbol } = c)
          rest cs := by
        refine forall₂_imp_of_mem (fun {q d} hmem _ hq => ?_) henv
        have hlt := SymbolTable.lt_size_of_get? (hget q (List.mem_cons_of_mem _ hmem))
        rw [Env.set_of_ne, hq]
        intro heq
        exact Nat.ne_of_lt (Nat.lt_of_lt_of_le hlt hlaid.keeps.size_le)
          (congrArg Variable.symbol heq)
      obtain ⟨env', frame', hgoes', hscope, hlaid', hheld'⟩ := ih
        (fun q hq => hget q (List.mem_cons_of_mem _ hq))
        (fun q hq => hsymbols q (List.mem_cons_of_mem _ hq)) hnodup
        (fun q hq => List.forall_mem_cons.2
          ⟨fun heq => hfresh (List.mem_map.2 ⟨q, hq, Eq.symm heq⟩),
            hne q (List.mem_cons_of_mem _ hq)⟩) hlaid₁ h hheld₁ harguments henv₁
      exact ⟨env', frame', hgoes.trans hgoes', hscope, hlaid', hheld'⟩

theorem heading_of_declareParameter {parameters : List (Parameter SymbolId)}
    (h : parameters.foldlM declareParameter draft = .ok draft') :
    draft'.function.heading = (draft.function.symbol, draft.function.name,
      draft.function.returnType,
      draft.function.parameters ++ parameters.map fun p => { symbol := p.symbol },
      draft.function.entry) := by
  induction parameters generalizing draft with
  | nil =>
    cases h
    rw [List.map_nil, List.append_nil]
    rfl
  | cons p rest ih =>
    obtain ⟨draft₁, hfirst, h⟩ := bind_eq_ok.1 h
    obtain ⟨ty, -, hfirst⟩ := bind_eq_ok.1 hfirst
    cases hfirst
    have hheading := draft.function.heading_modifyBlock draft.current fun block =>
      { block with instructions := block.instructions ++
        [.alloca { symbol := draft.supply.symbols.next } ty,
          .store { symbol := draft.supply.symbols.next } (.var { symbol := p.symbol }) ty] }
    simp only [Function.heading, Prod.mk.injEq] at hheading
    obtain ⟨hsymbol, hname, hreturn, hparameters, hentry⟩ := hheading
    rw [ih h]
    simp only [emit, hsymbol, hname, hreturn, hparameters, hentry,
      List.append_assoc, List.map_cons, List.singleton_append]

theorem heading_declareReturn (draft : Draft) :
    draft.declareReturn.function.heading = draft.function.heading := by
  unfold declareReturn
  split
  · rfl
  · exact Function.heading_modifyBlock ..

theorem returnSlot_declareReturn (h : draft.function.returnType = none) :
    draft.declareReturn.returnSlot = draft.returnSlot := by
  rw [declareReturn, h]

theorem goes_declareReturn (calls : Calls) (hs : Stage.Sound ⟨[], draft, true⟩)
    (hf : Stage.Becomes ⟨[], draft.declareReturn, true⟩ f) (env : Env) :
    Stage.Becomes ⟨[], draft, true⟩ f ∧
      Goes calls f (draft.reached f env) (draft.declareReturn.reached f env) := by
  unfold declareReturn at hf ⊢
  split at hf
  · exact ⟨hf, .refl ..⟩
  · rename_i ty _
    have hboth := becomes_of_extend draft (SymbolTable.keeps_declareVariable ..) hf
    exact ⟨hboth.2, Goes.extend hs hboth.1.grows (Computes.alloca calls f _ ty 0 env)⟩

theorem ofSymbol_of_get? {symbol : SymbolId} {name : String} {parameters : List SymbolId}
    (h : table.get? symbol = some ⟨name, .function parameters returnType⟩) :
    Draft.ofSymbol table symbol = .ok
      { supply := { symbols := table }
        function :=
          { symbol, name, returnType, entry := 0, exit := 1
            blocks := .ofList [.labelled 0, .labelled 1] }
        current := 0 } := by
  rw [ofSymbol, Function.ofSymbol, SymbolTable.get_eq_ok.2 h,
    SymbolTable.returnTypeOf_of_function? (SymbolTable.function?_eq_some.2 ⟨name, h⟩)]
  rfl

end Draft

namespace Env

theorem bind_of_notMem {env : Env} {vs : List Variable} {v : Variable} (h : v ∉ vs)
    (cs : List Constant) : env.bind vs cs v = env v := by
  induction vs generalizing env cs with
  | nil => rfl
  | cons u vs ih =>
    cases cs with
    | nil => rfl
    | cons c cs =>
      rw [List.mem_cons, not_or] at h
      rw [bind, ih h.2, set_of_ne _ _ h.1]

theorem forall₂_bind {env : Env} {parameters : List (Parameter SymbolId)} {cs : List Constant}
    (hnodup : (parameters.map (·.symbol)).Nodup) (hlength : parameters.length = cs.length) :
    List.Forall₂ (fun p c =>
      env.bind (parameters.map fun p => { symbol := p.symbol }) cs { symbol := p.symbol } = c)
      parameters cs := by
  induction parameters generalizing env cs with
  | nil =>
    cases cs with
    | nil => exact .nil
    | cons c cs => cases hlength
  | cons p rest ih =>
    cases cs with
    | nil => cases hlength
    | cons c cs =>
      obtain ⟨hp, hnodup⟩ := List.nodup_cons.1 hnodup
      refine .cons ?_ (ih hnodup (Nat.succ.inj hlength))
      rw [List.map_cons, bind, bind_of_notMem, set_self]
      intro hmem
      obtain ⟨q, hq, heq⟩ := List.mem_map.1 hmem
      exact hp (List.mem_map.2 ⟨q, hq, congrArg Variable.symbol heq⟩)

end Env

end Flow

open Cinder.Flow

theorem Locals.length_of_ofArguments {parameters : List (Parameter SymbolId)}
    {locals locals' : Locals}
    {arguments : List Constant} (h : locals.ofArguments parameters arguments = some locals') :
    parameters.length = arguments.length := by
  induction parameters generalizing locals arguments with
  | nil =>
    cases arguments with
    | nil => rfl
    | cons c cs => cases h
  | cons p rest ih =>
    cases arguments with
    | nil => cases h
    | cons c cs => exact congrArg Nat.succ (ih h)

/-! ## Functions -/

namespace Definition

/-- What checking a program says about one of its functions. -/
structure Accepted (definition : Definition.Typed) (table : SymbolTable)
    (base : Scope) (next : Nat) : Prop where
  heading : definition.TypedIn table
  symbols : ∀ p ∈ definition.parameters, p.symbol < next
  nodup : (definition.parameters.map (·.symbol)).Nodup
  bound : definition.body.Bound (base.declareParameters definition.parameters) next
  locals : table.Locals next definition.body.declarations
  typed : definition.body.WellTyped table (definition.returnType.map (·.ty))
  returns : definition.returnType.isSome = true → definition.body.returns = true

namespace Drafts

variable {definition : Definition.Typed} {table table₀ : SymbolTable}
  {start opened last complete : Draft} {base : Scope} {next : Nat} {calls : Calls}
  {results : Results} {arguments : List Constant} {value : Option Constant}
  (h : Drafts table definition start opened last complete)

include h

theorem becomes {isOpen : Bool} (hs : Stage.Sound ⟨[], last, isOpen⟩)
    (hsymbols : complete.supply.symbols.size ≤ UInt32.size)
    (hblocks : complete.function.blocks.size ≤ UInt32.size) :
    Stage.Becomes ⟨[], last.jumpIfOpen last.function.exit, false⟩ complete.function ∧
      (last.stage []).Becomes complete.function := by
  have hfill := h.finishes
  rw [Draft.finish_eq] at hfill
  have hended : Stage.Becomes ⟨[], last.jumpIfOpen last.function.exit, false⟩
      complete.function := by
    refine ⟨⟨?_, ?_⟩, Draft.growsInto_of_fillExit hfill⟩
    · exact Nat.le_trans (Draft.keeps_of_fillExit hfill).size_le hsymbols
    · rw [← Draft.size_of_fillExit hfill]
      exact hblocks
  refine ⟨hended, ?_⟩
  rw [hs.stage_eq]
  cases isOpen with
  | false =>
    have hterminated : last.isTerminated = true := hs.isTerminated
    rwa [Draft.jumpIfOpen, hterminated, if_pos rfl] at hended
  | true =>
    have hterminated : last.isTerminated = false := hs.isTerminated
    rw [Draft.jumpIfOpen, hterminated, if_neg Bool.false_ne_true] at hended
    have hleave : Stage.Step 0 ⟨[], last, true⟩ _ := .leave
    exact Stage.Steps.becomes (.single hleave) hs hended

variable (haccepted : definition.Accepted table₀ base next) (hkeeps : table₀.Keeps table)

include haccepted hkeeps

theorem start_eq : start =
    { supply := { symbols := table }
      function :=
        { symbol := definition.symbol, name := definition.name.name
          returnType := definition.returnType.map (·.ty), entry := 0, exit := 1
          blocks := .ofList [.labelled 0, .labelled 1] }
      current := 0 } := by
  have hstart := h.starts
  rw [Draft.ofSymbol_of_get? (hkeeps.get haccepted.heading.function)] at hstart
  exact (Except.ok.inj hstart).symm

theorem heading_complete :
    complete.function.heading = (definition.symbol, definition.name.name,
      definition.returnType.map (·.ty),
      definition.parameters.map (fun p => { symbol := p.symbol }), 0) := by
  obtain ⟨isOpen, hsteps⟩ := Block.steps_of_lower (hkeeps.trans h.keeps_opened) [] haccepted.bound
    haccepted.locals h.lowers
  have hfill := h.finishes
  rw [Draft.finish_eq] at hfill
  have hreturn := start.heading_declareReturn
  simp only [Function.heading, Prod.mk.injEq] at hreturn
  obtain ⟨hsymbol, hname, hreturnType, hparameters, hentry⟩ := hreturn
  rw [Draft.heading_of_fillExit hfill, Draft.heading_jumpIfOpen, hsteps.heading,
    Draft.heading_of_declareParameter h.opens, hsymbol, hname, hreturnType, hparameters, hentry,
    h.start_eq haccepted hkeeps]
  rfl

theorem laid_declareReturn (hfit : start.declareReturn.supply.symbols.size ≤ UInt32.size) :
    Cells.Laid table₀ (definition.returnType.map (·.ty)) [] next
      ⟨[], start.declareReturn, true⟩ := by
  have hsound := Draft.sound_declareReturn (Draft.sound_of_ofSymbol h.starts) hfit
  refine ⟨?_, hsound, ?_, ?_, ?_, ?_, ?_⟩
  · have hkeeps' := start.keeps_declareReturn
    rw [Draft.symbols_of_ofSymbol h.starts] at hkeeps'
    exact hkeeps.trans hkeeps'
  · intro hreturn
    have hstart := h.start_eq haccepted hkeeps
    have htype : start.function.returnType = none := by rw [hstart, hreturn]
    rw [Draft.returnSlot_declareReturn htype, hstart]
  all_goals simp

/-- The function gets from its entry to its body with the arguments in place. -/
theorem goes_opened {locals : Locals}
    (hf : Stage.Becomes ⟨[], opened, true⟩ complete.function)
    (harguments : Locals.ofArguments [] definition.parameters arguments = some locals)
    (init : Env) :
    ∃ s env frame, complete.function.start init arguments = some s ∧
      Goes calls complete.function s (opened.reached complete.function env) ∧
      Cells.scope frame base = base.declareParameters definition.parameters ∧
      frame.Laid table₀ (definition.returnType.map (·.ty)) next ⟨[], opened, true⟩ ∧
      Cells.Holds env frame locals := by
  have hheading := h.heading_complete haccepted hkeeps
  simp only [Function.heading, Prod.mk.injEq] at hheading
  obtain ⟨-, -, -, hparameters, hentry⟩ := hheading
  have hstart := h.start_eq haccepted hkeeps
  have hlabel : start.function.block? start.current = some (.labelled start.current) := by
    rw [hstart]
    rfl
  have hcurrent : start.current = 0 := by rw [hstart]
  have hreserved := Draft.becomes_of_declareParameter h.opens hf
  have hsound := Draft.sound_of_ofSymbol h.starts
  -- the arguments are in the parameters
  have henv : List.Forall₂ (fun (p : Parameter SymbolId) c =>
      init.bind complete.function.parameters arguments { symbol := p.symbol } = c)
      definition.parameters arguments := by
    rw [hparameters]
    exact Env.forall₂_bind haccepted.nodup (Locals.length_of_ofArguments harguments)
  obtain ⟨hstarted, hreturn⟩ := Draft.goes_declareReturn calls hsound hreserved
    (init.bind complete.function.parameters arguments)
  obtain ⟨s, henter, hgoes⟩ : ∃ s, _ ∧ Goes calls complete.function s _ :=
    hstarted.grows.enter hlabel (init.bind complete.function.parameters arguments)
  have hlaid := h.laid_declareReturn haccepted hkeeps hreserved.fits.symbols
  obtain ⟨env', frame, hparametersGo, hscope, hopened, hheld⟩ := Draft.goes_of_declareParameter
    calls base haccepted.heading.parameters haccepted.symbols haccepted.nodup
    (by simp) hlaid h.opens hf .nil harguments henv
  refine ⟨s, env', frame, ?_, ?_, hscope, hopened, hheld⟩
  · rw [Function.start, hentry, ← hcurrent]
    exact henter
  · rw [← Draft.reached_enter hlabel] at hgoes
    exact (hgoes.trans hreturn).trans hparametersGo

/-- The way through the body, and what becomes of the drafts at its two ends. -/
theorem exists_steps (hsymbols : complete.supply.symbols.size ≤ UInt32.size)
    (hblocks : complete.function.blocks.size ≤ UInt32.size) :
    ∃ isOpen, Stage.Sound ⟨[], last, isOpen⟩ ∧
      Stage.Steps next ⟨[], opened, true⟩ (last.stage []) ∧
      Stage.Becomes ⟨[], opened, true⟩ complete.function ∧
      (last.stage []).Becomes complete.function ∧
      Stage.Becomes ⟨[], last.jumpIfOpen last.function.exit, false⟩ complete.function := by
  obtain ⟨isOpen, hsteps⟩ := Block.steps_of_lower (hkeeps.trans h.keeps_opened) [] haccepted.bound
    haccepted.locals h.lowers
  have hfits := h.fits hsymbols hblocks isOpen
  have hsound₀ := h.sound_opened ⟨haccepted.heading, _, next, haccepted.bound, haccepted.locals⟩
    hkeeps (Stage.Steps.fits hsteps hfits).symbols
  have hsound := hsteps.sound hfits hsound₀
  obtain ⟨hended, hlast⟩ := h.becomes hsound hsymbols hblocks
  have hsteps := hsteps.to_stage hsound₀ hlast.fits
  exact ⟨isOpen, hsound, hsteps, Stage.Steps.becomes hsteps hsound₀ hlast, hlast, hended⟩

theorem reaches_of_call (houtside : ∀ name symbol, base.find? name ≠ some (.var symbol))
    (hserves : calls.Serves results base)
    (hsymbols : complete.supply.symbols.size ≤ UInt32.size)
    (hblocks : complete.function.blocks.size ≤ UInt32.size)
    (hcall : definition.call results arguments = some value) (init : Env) :
    ∃ events s, complete.function.Reaches calls init arguments events s ∧
      s.block = complete.function.exit ∧ s.Returns value := by
  obtain ⟨locals, harguments, hcall⟩ := Option.bind_eq_some_iff.1 hcall
  obtain ⟨outcome, hexec, hcall⟩ := Option.bind_eq_some_iff.1 hcall
  obtain ⟨isOpen, hsound, hsteps, hopened, hlast, hended⟩ :=
    h.exists_steps haccepted hkeeps hsymbols hblocks
  have hfill := h.finishes
  rw [Draft.finish_eq] at hfill
  obtain ⟨s, env, frame, hstart, hgoes, hscope, hlaid, hheld⟩ :=
    h.goes_opened haccepted hkeeps hopened harguments init
  have hbound := haccepted.bound
  rw [← hscope] at hbound
  have harrives := Block.faithful houtside hserves hbound haccepted.typed haccepted.locals _ _ _ _ _
    _ hlaid h.lowers hlast hheld hexec
  obtain ⟨env', hgoes', hvalue⟩ : ∃ env', Goes calls complete.function s
      (complete.function.arrive complete.function.exit env') ∧
        last.returnSlot.map env' = value := by
    cases outcome with
    | next inner =>
      have hvalue : none = value := Option.some.inj hcall
      obtain ⟨hopen, env', hgoes', -⟩ := harrives
      -- a function that returns a value does not get to the end of its body
      have htype : definition.returnType.map (·.ty) = none := by
        rw [Option.map_eq_none_iff, ← Option.not_isSome_iff_eq_none]
        intro hsome
        obtain ⟨result, hresult⟩ := Block.returned_of_exec (haccepted.returns hsome) hexec
        cases hresult
      have hslot : last.returnSlot = none := hsteps.returnSlot.trans (hlaid.returns htype)
      rw [Draft.jumpIfOpen, hopen, if_neg Bool.false_ne_true] at hended
      cases isOpen with
      | false => exact absurd (hopen.symm.trans hsound.isTerminated) Bool.false_ne_true
      | true =>
        refine ⟨env', (hgoes.trans hgoes').trans (.leave hsound rfl hended.grows env'), ?_⟩
        rw [hslot, ← hvalue, Option.map_none]
    | returned result =>
      have hresult : result = value := Option.some.inj hcall
      obtain ⟨env', hgoes', hvalue⟩ := harrives
      exact ⟨env', hgoes.trans hgoes', hvalue.trans hresult⟩
  obtain ⟨t, hreturn, hexit, hreturns⟩ := Draft.returns_of_fillExit calls
    (hsound.jumpIfOpen List.mem_cons_self) hfill env'
  obtain ⟨events, hruns⟩ := hgoes'.trans hreturn
  rw [Draft.returnSlot_jumpIfOpen, hvalue] at hreturns
  exact ⟨events, t, ⟨s, hstart, hruns⟩, hexit, hreturns⟩

end Drafts

theorem accepted_of_boundAll {table : SymbolTable} {scope : Scope} {next : Nat}
    {definitions : List Definition.Typed} (hb : BoundAll scope next definitions)
    (hheadings : ∀ d ∈ definitions, d.TypedIn table)
    (hsymbols : ∀ d ∈ definitions, ∀ p ∈ d.parameters, p.symbol < next)
    (hnodup : ∀ d ∈ definitions, (d.parameters.map (·.symbol)).Nodup)
    (htyped : ∀ d ∈ definitions, d.body.WellTyped table (d.returnType.map (·.ty)))
    (hreturns : ∀ d ∈ definitions, d.returnType.isSome = true → d.body.returns = true)
    (hlocals : table.Locals next (declarationsAll definitions)) :
    ∀ d ∈ definitions, ∃ first, d.Accepted table scope first := by
  induction definitions generalizing next with
  | nil => nofun
  | cons d rest ih =>
    have hlocals : table.Locals next (d.body.declarations + declarationsAll rest) := hlocals
    simp only [List.forall_mem_cons] at hheadings hsymbols hnodup htyped hreturns ⊢
    refine ⟨⟨next, hheadings.1, hsymbols.1, hnodup.1, hb.1,
      hlocals.mono (Nat.le_refl _) (by omega), htyped.1, hreturns.1⟩, ?_⟩
    refine ih hb.2 hheadings.2 ?_ hnodup.2 htyped.2 hreturns.2
      (hlocals.mono (by omega) (by omega))
    exact fun e he p hp => Nat.lt_of_lt_of_le (hsymbols.2 e he p hp) (Nat.le_add_right ..)

end Definition

theorem Signature.Numbered.nodup_parameters {signatures : List Signature} {next : Nat}
    {s : Signature} (h : Numbered next signatures)
    (hs : s ∈ signatures) : (s.parameters.map (·.symbol)).Nodup := by
  induction signatures generalizing next with
  | nil => cases hs
  | cons first rest ih =>
    obtain ⟨-, hparameters, hrest⟩ := h
    rcases List.mem_cons.1 hs with rfl | hs
    · rw [hparameters]
      exact List.nodup_range'
    · exact ih hrest hs

theorem Program.accepted {program : Program.Typed} {table : SymbolTable} (hb : program.Bound)
    (ht : program.WellTyped table) :
    ∀ d ∈ program.functions, ∃ first,
      d.Accepted table (Signature.scope program.signatures) first := by
  refine Definition.accepted_of_boundAll hb.bodies ht.headings ?_ ?_ ht.bodies ht.returns ?_
  · intro d hd p hp
    have hlt := (hb.numbered.lt (List.mem_map_of_mem hd)).2.2 p hp
    rw [Nat.zero_add] at hlt
    exact hlt.2
  · exact fun d hd => hb.numbered.nodup_parameters (List.mem_map_of_mem hd)
  · intro id hid hlt
    exact ht.locals hid (by rwa [ht.size])

end Cinder
