import Cinder.Proofs.Flow.Acyclic
import Cinder.Proofs.Flow.Functions
import Cinder.Proofs.Flow.Liveness

/-!
# Parameters

Parameters arrive in registers that calls and operations write.  A lowered function
copies them into its slots before it does anything else, and never reads them again.
Passes leave it that way, so no parameter is live behind an instruction that writes
such registers.
-/

namespace Cinder

namespace Flow

variable {table table' : SymbolTable} {used : VariableSet} {parameters : List Variable}

/-! ## Instructions -/

/-- Whether the code of an instruction may write registers that arguments arrive
in. -/
def Instruction.overwrites : Instruction → Bool
  | .call .. => true
  | .binary .. => true
  | .cast .. => true
  | .load .. => true
  | _ => false

def Avoids (parameters : List Variable) (l : List Instruction) : Prop :=
  ∀ i ∈ l, ∀ v ∈ i.uses, v ∉ parameters

/-- Instructions that read some parameters, if at all, before any of them overwrites
a register. -/
structure ReadsFirst (parameters : List Variable) (l : List Instruction) : Prop where
  within : ∀ i ∈ l, i.overwrites = true → ∀ v ∈ i.uses, v ∉ parameters
  behind : l.Pairwise fun i j => i.overwrites = true → ∀ v ∈ j.uses, v ∉ parameters

theorem Avoids.append {l l' : List Instruction} (h : Avoids parameters l)
    (h' : Avoids parameters l') : Avoids parameters (l ++ l') :=
  List.forall_mem_append.2 ⟨h, h'⟩

namespace ReadsFirst

variable {l l' : List Instruction}

theorem of_copies (h : ∀ i ∈ l, i.overwrites = false) : ReadsFirst parameters l where
  within i hi hover := absurd (hover.symm.trans (h i hi)) nofun
  behind := List.pairwise_of_forall_mem_list fun i hi _ _ hover =>
    absurd (hover.symm.trans (h i hi)) nofun

theorem append (h : ReadsFirst parameters l) (h' : Avoids parameters l') :
    ReadsFirst parameters (l ++ l') where
  within i hi hover := (List.mem_append.1 hi).elim (fun hi => h.within i hi hover) (h' i)
  behind := List.pairwise_append.2 ⟨h.behind,
    List.pairwise_of_forall_mem_list fun _ _ j hj _ => h' j hj, fun _ _ j hj _ => h' j hj⟩

/-- No parameter is read behind an instruction that overwrites registers. -/
theorem not_mem_uses {done rest : List Instruction} {i j : Instruction}
    (h : ReadsFirst parameters (done ++ i :: rest)) (hover : i.overwrites = true) (hj : j ∈ rest)
    {v : Variable} (hv : v ∈ j.uses) : v ∉ parameters := by
  have hpairs := (List.pairwise_append.1 h.behind).2.1
  exact (List.pairwise_cons.1 hpairs).1 j hj hover v hv

/-! ## Rewrites -/

/-- Replacing instructions by ones that neither overwrite nor read more. -/
theorem map {g : Instruction → Instruction} (h : ReadsFirst parameters l)
    (hover : ∀ i, (g i).overwrites = true → i.overwrites = true)
    (huses : ∀ i, (g i).uses ⊆ i.uses) : ReadsFirst parameters (l.map g) where
  within := List.forall_mem_map.2 fun i hi hg v hv => h.within i hi (hover i hg) v (huses i hv)
  behind := List.pairwise_map.2 <| h.behind.imp fun {i j} hij hg v hv =>
    hij (hover i hg) v (huses j hv)

theorem sublist (h : ReadsFirst parameters l) (hsub : l'.Sublist l) : ReadsFirst parameters l' where
  within i hi := h.within i (hsub.subset hi)
  behind := h.behind.sublist hsub

theorem decide {target : Option BlockId} (h : ReadsFirst parameters l)
    (hd : decideBranch l = some (l', target)) : ReadsFirst parameters l' := by
  obtain ⟨done, c, t, rest, rfl, ⟨rfl, -⟩ | ⟨rfl, -⟩⟩ := exists_branch_of_decideBranch hd
  · exact h.sublist ((List.sublist_cons_self ..).append_left done)
  · have hdone := h.sublist (List.sublist_append_left done _)
    refine ⟨List.forall_mem_append.2 ⟨hdone.within, ?_⟩,
      List.pairwise_append.2 ⟨hdone.behind, List.pairwise_singleton .., ?_⟩⟩
    · rintro i hi hover
      cases List.mem_singleton.1 hi
      cases hover
    · rintro i - j hj - v hv
      cases List.mem_singleton.1 hj
      cases hv

end ReadsFirst

theorem Instruction.overwrites_fold {i : Instruction} (h : i.fold.overwrites = true) :
    i.overwrites = true := by
  unfold fold fold? at h
  split at h
  · rfl
  · cases h
  · exact h

theorem Instruction.overwrites_mapReplaceable (g : Operand → Operand) (i : Instruction) :
    (i.mapReplaceable g).overwrites = i.overwrites := by
  cases i <;> rfl

theorem Instruction.overwrites_retarget (source target : BlockId) (i : Instruction) :
    (i.retarget source target).overwrites = i.overwrites := by
  cases i <;> rfl

theorem Block.Rewrite.readsFirst {f : Function} {block new : Block}
    (h : block.Rewrite table used f new) (hb : ReadsFirst parameters block.instructions) :
    ReadsFirst parameters new.instructions := by
  cases h with
  | fold =>
    exact hb.map (fun _ => Instruction.overwrites_fold) Instruction.uses_fold_subset
  | propagate =>
    refine hb.map (fun i hi => ?_) (Instruction.uses_propagate_subset _)
    rwa [Instruction.overwrites_mapReplaceable] at hi
  | prune =>
    rw [instructions_prune]
    exact hb.sublist (List.filter_sublist.trans (takeThrough_sublist ..))
  | decide hd => exact hb.decide hd
  | redirect hlead hlast hend =>
    refine hb.map (fun i hi => ?_) fun i => ?_
    · rwa [Instruction.overwrites_retarget] at hi
    · rw [Instruction.uses_retarget]
      exact List.Subset.refl _

namespace Function

/-- A function reads some parameters in its entry only, and there before anything
overwrites a register. -/
structure Receives (parameters : List Variable) (f : Function) : Prop where
  first : ∀ {j block}, f.block? j = some block → ReadsFirst parameters block.instructions
  entry : ∀ {j block}, f.block? j = some block → j ≠ f.entry →
    Avoids parameters block.instructions

variable {f g : Function}

theorem Receives.rewrite {id : BlockId} (h : f.Receives parameters)
    (hrw : f.Rewrite table used id g) : g.Receives parameters := by
  obtain ⟨block, new, hb, hrw, rfl⟩ := hrw
  constructor
  · intro j other hj
    exact forall_setBlock hb (Q := fun _ b => ReadsFirst parameters b.instructions)
      (fun hb => h.first hb) (hrw.readsFirst (h.first hb)) hj
  · intro j other hj
    refine forall_setBlock hb (Q := fun j b => j ≠ f.entry → Avoids parameters b.instructions)
      (fun hb => h.entry hb) (fun hid i hi v hv => ?_) hj
    obtain ⟨k, hk, hv⟩ := hrw.uses hi hv
    exact h.entry hb hid k hk v hv

theorem Receives.rounds (h : f.Receives parameters) (hrounds : f.Rounds table g) :
    g.Receives parameters := by
  induction hrounds with
  | refl => exact h
  | tail _ hround ih =>
    exact RewritesIn.keep hround (P := Receives parameters) (fun _ hrw hg => hg.rewrite hrw) ih

/-! ## Functions under construction -/

theorem Receives.modify {id : BlockId} {change : Block → Block} {l : List Instruction}
    (h : f.Receives parameters)
    (hchange : ∀ block, (change block).instructions = block.instructions ++ l)
    (hl : Avoids parameters l) : (f.modifyBlock id change).Receives parameters := by
  rcases f.modifyBlock_cases id change with hsame | ⟨block, hb, hset⟩
  · rwa [hsame]
  · rw [hset]
    constructor
    · intro j other hj
      refine forall_setBlock hb (Q := fun _ b => ReadsFirst parameters b.instructions)
        (fun hb => h.first hb) ?_ hj
      rw [hchange]
      exact (h.first hb).append hl
    · intro j other hj
      refine forall_setBlock hb (Q := fun j b => j ≠ f.entry → Avoids parameters b.instructions)
        (fun hb => h.entry hb) (fun hid => ?_) hj
      rw [hchange]
      exact (h.entry hb hid).append hl

theorem Receives.addBlock (h : f.Receives parameters) : f.addBlock.Receives parameters := by
  have hcases : ∀ {j block}, f.addBlock.block? j = some block →
      block = .labelled f.blocks.next ∨ f.block? j = some block := by
    intro j block hb
    rw [show f.addBlock.block? j = _ from Arena.get?_push ..] at hb
    split at hb
    · exact .inl (Option.some.inj hb).symm
    · exact .inr hb
  constructor
  · intro j block hb
    rcases hcases hb with rfl | hb
    · exact .of_copies (List.forall_mem_singleton.2 rfl)
    · exact h.first hb
  · intro j block hb hj
    rcases hcases hb with rfl | hb
    · exact List.forall_mem_singleton.2 nofun
    · exact h.entry hb hj

end Function

def ParametersIn (table : SymbolTable) (parameters : List Variable) : Prop :=
  ∀ v ∈ parameters, ∃ name ty, table.get? v.symbol = some ⟨name, .var ty .parameter⟩

theorem ParametersIn.keeps (h : ParametersIn table parameters) (hkeeps : table.Keeps table') :
    ParametersIn table' parameters := by
  intro v hv
  obtain ⟨name, ty, hget⟩ := h v hv
  exact ⟨name, ty, hkeeps.get hget⟩

theorem ParametersIn.not_mem_of_size_le (h : ParametersIn table parameters) {v : Variable}
    (hv : table.size ≤ v.symbol) : v ∉ parameters := by
  intro hmem
  obtain ⟨name, ty, hget⟩ := h v hmem
  exact Nat.not_lt.2 hv (SymbolTable.lt_size_of_get? hget)

/-- Straight code neither reads nor writes parameters. -/
theorem Straight.avoids {slots : Slots} {returnSlot : Option Variable} {supply supply' : Supply}
    {l : List Instruction} (h : Straight slots returnSlot supply l supply')
    (hfit : supply'.symbols.size ≤ UInt32.size)
    (hslots : ∀ v, v ∈ slots.map Prod.snd ∨ returnSlot = some v → v ∉ parameters)
    (hknown : ParametersIn supply.symbols parameters) :
    Avoids parameters l ∧ ∀ v ∈ definitions l, v ∉ parameters := by
  have hwrites : ∀ v ∈ definitions l, v ∉ parameters := fun v hv =>
    (h.mem_definitions hfit hv).elim hknown.not_mem_of_size_le (hslots v)
  refine ⟨?_, hwrites⟩
  -- what is read is a slot, or has been written before
  have hsnoc : ∀ {l : List Instruction} {i : Instruction},
      (∀ v ∈ definitions (l ++ [i]), v ∉ parameters) →
      ((∀ v ∈ definitions l, v ∉ parameters) → Avoids parameters l) →
      (∀ v ∈ i.uses, v ∈ definitions l ∨ v ∉ parameters) → Avoids parameters (l ++ [i]) := by
    intro l i hwrites ih huses
    have hbefore : ∀ v ∈ definitions l, v ∉ parameters := fun v hv =>
      hwrites v (mem_definitions_append_left hv)
    exact (ih hbefore).append (List.forall_mem_singleton.2 fun v hv =>
      (huses v hv).elim (hbefore v) id)
  clear hfit
  induction h with
  | nil => exact List.forall_mem_nil _
  | @load l supply' source ty h hsource ih =>
    exact hsnoc hwrites ih (List.forall_mem_singleton.2 (.inr (hslots source (.inl hsource))))
  | compute h hplain hdefinition huses ih => exact hsnoc hwrites ih fun v hv => .inl (huses v hv)
  | call h huses ih =>
    exact hsnoc hwrites ih fun v hv => .inl (huses v (Instruction.mem_uses.1 hv))
  | store h hslot hvalue ih =>
    exact hsnoc hwrites ih fun v hv =>
      .inl (hvalue v (List.mem_singleton.1 (Instruction.mem_uses.1 hv)).symm)

namespace Draft

/-- A draft whose function reads some parameters only first, and has no slots among
them. -/
structure Receives (parameters : List Variable) (draft : Draft) : Prop where
  known : ParametersIn draft.supply.symbols parameters
  slots : ∀ v, v ∈ draft.slots.map Prod.snd ∨ draft.returnSlot = some v → v ∉ parameters
  function : draft.function.Receives parameters

variable {draft draft' : Draft}

section

variable (h : draft.Receives parameters)

include h

theorem Receives.extend {l : List Instruction} (hl : Avoids parameters l) {supply : Supply}
    (hkeeps : draft.supply.symbols.Keeps supply.symbols) :
    (draft.extend l supply).Receives parameters :=
  ⟨h.known.keeps hkeeps, h.slots, h.function.modify (fun _ => rfl) hl⟩

theorem Receives.jump (target : BlockId) : (draft.jump target).Receives parameters := by
  refine ⟨h.known, h.slots, ?_⟩
  rw [function_jump]
  exact h.function.modify (fun _ => rfl) (List.forall_mem_singleton.2 nofun)

theorem Receives.jumpIfOpen (target : BlockId) : (draft.jumpIfOpen target).Receives parameters := by
  rw [Draft.jumpIfOpen]
  split
  · exact h
  · exact h.jump target

theorem Receives.fork {condition : Operand}
    (hcondition : ∀ v, condition = .var v → v ∉ parameters) :
    (draft.fork condition).Receives parameters := by
  refine ⟨h.known, h.slots, ?_⟩
  simp only [Draft.fork, enter, function_split]
  refine h.function.addBlock.addBlock.addBlock.modify (fun _ => rfl)
    (List.forall_mem_singleton.2 fun v hv => hcondition v ?_)
  exact (List.mem_singleton.1 (Instruction.mem_uses.1 hv)).symm

end

end Draft

theorem Stage.Step.receives {first : Nat} {s s' : Stage} (h : Stage.Step first s s')
    (hfit : s'.Fits) (hs : s.draft.Receives parameters) : s'.draft.Receives parameters := by
  cases h with
  | @declare pending draft symbol name ty hfirst h =>
    have havoids : Avoids parameters [.alloca { symbol } ty] :=
      List.forall_mem_singleton.2 nofun
    have hextend := hs.extend havoids (.refl draft.supply.symbols)
    refine ⟨hextend.known, ?_, hextend.function⟩
    rintro v (hv | hv)
    · rcases List.mem_cons.1 hv with rfl | hv
      · intro hmem
        obtain ⟨name', ty', hget⟩ := hs.known _ hmem
        cases h.symm.trans hget
      · exact hs.slots v (.inl hv)
    · exact hs.slots v (.inr hv)
  | extend h => exact hs.extend (h.avoids hfit.symbols hs.slots hs.known).1 h.keeps
  | leave => exact hs.jump _
  | fork h hcondition =>
    obtain ⟨huses, hdefinitions⟩ := h.avoids hfit.symbols hs.slots hs.known
    exact (hs.extend huses h.keeps).fork fun v hv => hdefinitions v (hcondition v hv)
  | @join id pending draft isOpen after h =>
    have hjump := hs.jumpIfOpen after
    exact ⟨hjump.known, hjump.slots, hjump.function⟩

theorem Stage.Steps.receives {first : Nat} {s s' : Stage} (h : Stage.Steps first s s')
    (hfit : s'.Fits) (hs : s.draft.Receives parameters) : s'.draft.Receives parameters := by
  induction h with
  | refl => exact hs
  | tail _ h ih => exact h.receives hfit (ih (h.fits hfit))

namespace Draft

variable {draft draft' : Draft}

theorem Receives.fillExit (hs : draft.Receives parameters) (h : draft.fillExit = .ok draft')
    (hfit : draft'.supply.symbols.size ≤ UInt32.size) : draft'.function.Receives parameters := by
  unfold Draft.fillExit at h
  split at h
  · cases h
    refine hs.function.modify (fun _ => rfl) (List.forall_mem_singleton.2 ?_)
    exact List.forall_mem_nil _
  · rename_i slot hslot
    obtain ⟨ty, -, h⟩ := bind_eq_ok.1 h
    cases h
    change (draft.supply.temporary ty).2.symbols.size ≤ _ at hfit
    rw [Supply.size_temporary] at hfit
    refine hs.function.modify (fun _ => rfl) (List.forall_mem_cons.2 ⟨?_, ?_⟩)
    · exact List.forall_mem_singleton.2 (hs.slots slot (.inr hslot))
    · refine List.forall_mem_singleton.2 (List.forall_mem_singleton.2 ?_)
      exact hs.known.not_mem_of_size_le (Nat.le_of_eq (SymbolTable.next_eq hfit).symm)

/-- A draft that has done nothing but copy parameters into new slots. -/
structure Opening (table : SymbolTable) (draft : Draft) : Prop where
  keeps : table.Keeps draft.supply.symbols
  fresh : ∀ v, v ∈ draft.slots.map Prod.snd ∨ draft.returnSlot = some v → table.size ≤ v.symbol
  current : draft.current = draft.function.entry
  copies : ∀ {j block}, draft.function.block? j = some block →
    ∀ i ∈ block.instructions, i.overwrites = false
  entry : ∀ {j block}, draft.function.block? j = some block → j ≠ draft.function.entry →
    ∀ i ∈ block.instructions, i.uses = []

theorem Opening.receives (h : draft.Opening table) (hknown : ParametersIn table parameters) :
    draft.Receives parameters where
  known := hknown.keeps h.keeps
  slots v hv := hknown.not_mem_of_size_le (h.fresh v hv)
  function :=
    ⟨fun hb => .of_copies (h.copies hb), fun hb hj i hi v hv => by simp [h.entry hb hj i hi] at hv⟩

theorem Opening.extend (h : draft.Opening table) (l : List Instruction) (supply : Supply)
    (hl : ∀ i ∈ l, i.overwrites = false) (hkeeps : draft.supply.symbols.Keeps supply.symbols) :
    (draft.extend l supply).Opening table := by
  have hentry : (draft.extend l supply).function.entry = draft.function.entry :=
    Function.modifyBlock_entry ..
  have hcases : ∀ {j block}, (draft.extend l supply).function.block? j = some block →
      draft.function.block? j = some block ∨ j = draft.function.entry ∧
        ∃ old, draft.function.block? j = some old ∧
          block.instructions = old.instructions ++ l := by
    intro j block hb
    rcases draft.function.modifyBlock_cases draft.current fun block =>
      { block with instructions := block.instructions ++ l } with hsame | ⟨old, hold, hset⟩
    · exact .inl (hsame ▸ hb)
    · rw [show (draft.extend l supply).function = _ from hset, Function.block?_setBlock hold] at hb
      split at hb
      · rename_i hj
        cases hb
        exact .inr ⟨hj.trans h.current, old, hj ▸ hold, rfl⟩
      · exact .inl hb
  refine ⟨h.keeps.trans hkeeps, h.fresh, h.current.trans hentry.symm, ?_, ?_⟩
  · intro j block hb
    rcases hcases hb with hb | ⟨-, old, hold, hnew⟩
    · exact h.copies hb
    · rw [hnew]
      exact List.forall_mem_append.2 ⟨h.copies hold, hl⟩
  · intro j block hb hj
    rw [hentry] at hj
    rcases hcases hb with hb | ⟨hj', -⟩
    · exact h.entry hb hj
    · exact absurd hj' hj

theorem opening_of_ofSymbol {symbol : SymbolId} (h : Draft.ofSymbol table symbol = .ok draft) :
    draft.Opening table := by
  obtain ⟨name, returnType, rfl, hblock⟩ := exists_of_ofSymbol h
  refine ⟨.refl _, by simp, rfl, ?_, ?_⟩
  · intro j block hb
    rw [(hblock hb).2]
    exact List.forall_mem_singleton.2 rfl
  · intro j block hb _
    rw [(hblock hb).2]
    exact List.forall_mem_singleton.2 rfl

theorem Opening.declareReturn (h : draft.Opening table)
    (hfit : draft.declareReturn.supply.symbols.size ≤ UInt32.size) :
    draft.declareReturn.Opening table := by
  unfold Draft.declareReturn at hfit ⊢
  split at hfit
  · exact h
  · rename_i ty _
    have hextend := h.extend [.alloca (draft.supply.slot "$ret" ty .returnSlot).1 ty]
      (draft.supply.slot "$ret" ty .returnSlot).2 (List.forall_mem_singleton.2 rfl)
      (SymbolTable.keeps_declareVariable ..)
    refine ⟨hextend.keeps, ?_, hextend.current, hextend.copies, hextend.entry⟩
    rintro v (hv | hv)
    · exact h.fresh v (.inl hv)
    · cases hv
      change (draft.supply.symbols.declareVariable "$ret" (some ty) .returnSlot).size ≤ _ at hfit
      rw [SymbolTable.size_declareVariable] at hfit
      change table.size ≤ draft.supply.symbols.next
      rw [SymbolTable.next_eq hfit]
      exact h.keeps.size_le

theorem Opening.bindParameter {p : Parameter SymbolId} {ty : Ty} (h : draft.Opening table)
    (hfit : (draft.bindParameter p ty).supply.symbols.size ≤ UInt32.size) :
    (draft.bindParameter p ty).Opening table := by
  rw [size_bindParameter] at hfit
  have hextend := h.extend
    [.alloca { symbol := draft.supply.symbols.next } ty,
      .store { symbol := draft.supply.symbols.next } (.var { symbol := p.symbol }) ty]
    (draft.bindParameter p ty).supply (by simp [Instruction.overwrites])
    (SymbolTable.keeps_declareVariable ..)
  refine ⟨hextend.keeps, ?_, hextend.current, hextend.copies, hextend.entry⟩
  rintro v (hv | hv)
  · rcases List.mem_cons.1 hv with rfl | hv
    · change table.size ≤ draft.supply.symbols.next
      rw [SymbolTable.next_eq hfit]
      exact h.keeps.size_le
    · exact h.fresh v (.inl hv)
  · exact h.fresh v (.inr hv)

theorem Opening.declareParameters {ps : List (Parameter SymbolId)} (hs : draft.Opening table)
    (h : ps.foldlM declareParameter draft = .ok draft')
    (hfit : draft'.supply.symbols.size ≤ UInt32.size) : draft'.Opening table := by
  refine declareParameters_induction
    (P := fun d => d.supply.symbols.size ≤ UInt32.size → d.Opening table) h (fun _ => hs) ?_ hfit
  intro d p ty _ _ ih hfit
  exact (ih (Nat.le_trans (d.keeps_bindParameter p ty).size_le hfit)).bindParameter hfit

end Draft

end Flow

open Cinder.Flow

/-! ## Lowered functions -/

theorem Definition.Drafts.receives {table table₀ : SymbolTable}
    {definition : Definition.Typed} {start opened last complete : Draft}
    {parameters : List Variable} (hknown : definition.KnownIn table₀) (hkeeps : table₀.Keeps table)
    (h : Drafts table definition start opened last complete)
    (hparameters : ParametersIn table parameters)
    (hsymbols : complete.supply.symbols.size ≤ UInt32.size)
    (hblocks : complete.function.blocks.size ≤ UInt32.size) :
    complete.function.Receives parameters := by
  obtain ⟨isOpen, hsteps, hfit, hfits, -⟩ := h.staged hknown hkeeps hsymbols hblocks
  have hsize := Nat.le_trans (Draft.keeps_of_declareParameter h.opens).size_le hfits
  have hopened : opened.Opening table :=
    ((Draft.opening_of_ofSymbol h.starts).declareReturn hsize).declareParameters h.opens hfits
  have hlast : last.Receives parameters :=
    Stage.Steps.receives hsteps hfit (hopened.receives hparameters)
  have hfill := h.finishes
  rw [Draft.finish_eq] at hfill
  exact (hlast.jumpIfOpen _).fillExit hfill hsymbols

/-- The functions of a program and the headings of their flow graphs. -/
theorem Program.headings_of_lower {program : Program.Typed} {table : SymbolTable} {m : Module}
    (hb : program.Bound) (ht : program.WellTyped table) (h : program.lower table = .ok m) :
    List.Forall₂ (fun d f => f.heading = (d.symbol, d.name.name, d.returnType.map (·.ty),
      d.parameters.map (fun p => { symbol := p.symbol }), 0)) program.functions m.functions := by
  refine forall₂_imp_of_mem ?_ (drafts_of_lower h)
  rintro d f hd hf ⟨before, start, opened, last, complete, hbefore, hdrafts, rfl, hafter⟩
  obtain ⟨first, haccepted⟩ := accepted hb ht d hd
  exact hdrafts.heading_complete haccepted hbefore

theorem Definition.TypedIn.parametersIn {table : SymbolTable}
    {definition : Definition.Typed} (h : definition.TypedIn table) :
    ParametersIn table (definition.parameters.map fun p => { symbol := p.symbol }) := by
  intro v hv
  obtain ⟨p, hp, rfl⟩ := List.mem_map.1 hv
  exact ⟨_, _, h.parameters p hp⟩

/-- Lowering an accepted program reads the parameters of a function first. -/
theorem Program.receives_of_lower {program : Program.Typed} {table : SymbolTable} {m : Module}
    (hb : program.Bound) (ht : program.WellTyped table) (h : program.lower table = .ok m)
    (hfit : m.Addressable) : ∀ f ∈ m.functions, f.Receives f.parameters := by
  intro f hf
  obtain ⟨d, hd, before, start, opened, last, complete, hbefore, hdrafts, rfl, hafter⟩ :=
    forall₂_exists_left (drafts_of_lower h) hf
  obtain ⟨first, haccepted⟩ := accepted hb ht d hd
  have hheading := hdrafts.heading_complete haccepted hbefore
  simp only [Function.heading, Prod.mk.injEq] at hheading
  obtain ⟨-, -, -, hparameters, -⟩ := hheading
  rw [hparameters]
  exact hdrafts.receives (knownIn hb ht d hd) hbefore
    ((ht.headings d hd).parametersIn.keeps hbefore)
    (Nat.le_trans hafter.size_le hfit.symbols) (hfit.blocks _ hf)

/-! ## Liveness -/

namespace Flow.Function

variable {f : Function} {parameters : List Variable} {entering leaving : BlockId → VariableSet}
  {id : BlockId} {v : Variable}

/-- What is live at the start of a block is read in some block behind it. -/
theorem Lives.exists_read (hl : f.Lives entering leaving) (hc : f.Acyclic)
    (hv : v ∈ entering id) :
    ∃ j, Relation.ReflTransGen f.Edge id j ∧ ∃ i ∈ f.instructionsOf j, v ∈ i.uses := by
  induction id using hc.induction with
  | _ id ih =>
    by_cases hid : id ∈ f.preorder
    · rw [hl.entering_eq hid] at hv
      rcases Instruction.mem_uses_of_mem_foldr_live hv with hv | hread
      · obtain ⟨n, hn, hv⟩ := (hl.leaving_iff hid).1 hv
        obtain ⟨j, hpath, hread⟩ := ih n hn hv
        exact ⟨j, .head hn hpath, hread⟩
      · exact ⟨id, .refl, hread⟩
    · rw [(hl.outside hid).1] at hv
      exact absurd hv Std.ExtTreeSet.not_mem_empty

theorem Receives.eq_entry (h : f.Receives parameters) {i : Instruction}
    (hi : i ∈ f.instructionsOf id) (hv : v ∈ i.uses) (hmem : v ∈ parameters) : id = f.entry := by
  by_contra hid
  cases hb : f.block? id with
  | none => simp [instructionsOf, hb] at hi
  | some block =>
    rw [instructionsOf_of_block? hb] at hi
    exact h.entry hb hid i hi v hv hmem

section

variable (h : f.Receives parameters) (hc : f.Acyclic) (ha : f.Agrees)
  (hl : f.Lives entering leaving) (hid : id ∈ f.preorder) (hmem : v ∈ parameters)

include h hc ha hl hid hmem

/-- No parameter is live at the end of a block: control does not come back to the
entry. -/
theorem Receives.not_mem_leaving : v ∉ leaving id := by
  intro hv
  obtain ⟨n, hn, hv⟩ := (hl.leaving_iff hid).1 hv
  obtain ⟨j, hpath, i, hi, hv⟩ := hl.exists_read hc hv
  rw [h.eq_entry hi hv hmem] at hpath
  have hne : id ≠ f.exit := by
    rintro rfl
    obtain ⟨block, hb, hn⟩ := exists_block?_of_edge hn
    rw [(ha hb).successors_exit] at hn
    cases hn
  have hreach := reachable_of_mem_interior ((mem_preorder_of_ne hne).1 hid)
  exact hc.not_transGen f.entry (.trans_right hreach (.head' hn hpath))

/-- No parameter is live behind an instruction that overwrites registers. -/
theorem Receives.not_mem_after {done rest : List Instruction} {i : Instruction}
    (hsplit : f.instructionsOf id = done ++ i :: rest) (hover : i.overwrites = true) :
    v ∉ rest.foldr Instruction.live (leaving id) := by
  intro hv
  rcases Instruction.mem_uses_of_mem_foldr_live hv with hv | ⟨j, hj, hv⟩
  · exact h.not_mem_leaving hc ha hl hid hmem hv
  · cases hb : f.block? id with
    | none => simp [instructionsOf, hb] at hsplit
    | some block =>
      rw [instructionsOf_of_block? hb] at hsplit
      have hfirst := h.first hb
      rw [hsplit] at hfirst
      exact hfirst.not_mem_uses hover hj hv hmem

end

end Flow.Function

end Cinder
