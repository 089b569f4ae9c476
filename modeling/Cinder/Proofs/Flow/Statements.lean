import Cinder.Proofs.Flow.Positions

/-!
# Code of statements

The instructions of a statement do what the statement does: variables in sight
keep their values in their slots, and a `return` leaves its value in the return
slot and goes to the exit.
-/

namespace Cinder.Flow

/-! ## Stages of drafts -/

/-- A draft on the way, whose current block is open unless it jumps away. -/
abbrev Draft.stage (draft : Draft) (pending : List BlockId) : Stage :=
  ⟨pending, draft, !draft.isTerminated⟩

namespace Draft

theorem slots_jumpIfOpen (draft : Draft) (target : BlockId) :
    (draft.jumpIfOpen target).slots = draft.slots := by
  rw [jumpIfOpen]
  split <;> rfl

theorem returnSlot_jumpIfOpen (draft : Draft) (target : BlockId) :
    (draft.jumpIfOpen target).returnSlot = draft.returnSlot := by
  rw [jumpIfOpen]
  split <;> rfl

end Draft

namespace Stage

theorem Sound.isTerminated {pending : List BlockId} {draft : Draft} {isOpen : Bool}
    (h : Stage.Sound ⟨pending, draft, isOpen⟩) : draft.isTerminated = !isOpen := by
  obtain ⟨block, hb, hshape⟩ := h.shaped.shape
  have hb : draft.function.block? draft.current = some block := hb
  rw [Draft.isTerminated, hb, Option.any_some]
  cases isOpen with
  | true => exact Block.IsOpen.isTerminated hshape
  | false => exact hshape.2

theorem Sound.stage_eq {pending : List BlockId} {draft : Draft} {isOpen : Bool}
    (h : Stage.Sound ⟨pending, draft, isOpen⟩) :
    draft.stage pending = ⟨pending, draft, isOpen⟩ := by
  rw [Draft.stage, h.isTerminated, Bool.not_not]

section

variable {first : Nat} {s s' : Stage}

theorem Step.lookup (h : Stage.Step first s s') {symbol : SymbolId} (hlt : symbol < first) :
    s'.draft.slots.lookup symbol = s.draft.slots.lookup symbol := by
  cases h with
  | @declare pending draft declared name ty hfirst h =>
    have hne : symbol ≠ declared := Nat.ne_of_lt (Nat.lt_of_lt_of_le hlt hfirst)
    change List.lookup symbol ((declared, _) :: draft.slots) = _
    rw [List.lookup_cons, beq_false_of_ne hne]
  | extend h => rfl
  | leave => rfl
  | fork h hcondition => rfl
  | join h => simp only [Draft.enter, Draft.slots_jumpIfOpen]

theorem Step.returnSlot (h : Stage.Step first s s') :
    s'.draft.returnSlot = s.draft.returnSlot := by
  cases h with
  | declare hfirst h => rfl
  | extend h => rfl
  | leave => rfl
  | fork h hcondition => rfl
  | join h => simp only [Draft.enter, Draft.returnSlot_jumpIfOpen]

theorem Steps.lookup (h : Stage.Steps first s s') {symbol : SymbolId} (hlt : symbol < first) :
    s'.draft.slots.lookup symbol = s.draft.slots.lookup symbol := by
  induction h with
  | refl => rfl
  | tail _ h ih => exact (h.lookup hlt).trans ih

theorem Steps.returnSlot (h : Stage.Steps first s s') :
    s'.draft.returnSlot = s.draft.returnSlot := by
  induction h with
  | refl => rfl
  | tail _ h ih => exact h.returnSlot.trans ih

end

structure Becomes (s : Stage) (f : Function) : Prop where
  fits : s.Fits
  grows : s.GrowsInto f

theorem Steps.becomes {first : Nat} {s s' : Stage} {f : Function} (h : Stage.Steps first s s')
    (hs : s.Sound) (hf : s'.Becomes f) : s.Becomes f :=
  ⟨Steps.fits h hf.fits, Steps.growsInto h hs hf.fits hf.grows⟩

end Stage

/-! ## Frames of drafts -/

namespace Cells

/-- The variables in sight have symbols before `next`, and a draft knows their slots.
No slot belongs to a symbol of the table that is still to be declared. -/
structure Laid (table : SymbolTable) (returnType : Option Ty) (frame : Cells) (next : Nat)
    (s : Stage) : Prop where
  keeps : table.Keeps s.draft.supply.symbols
  sound : s.Sound
  returns : returnType = none → s.draft.returnSlot = none
  slots : ∀ cell ∈ frame, s.draft.slots.lookup cell.symbol = some cell.slot
  symbols : ∀ cell ∈ frame, cell.symbol < next
  apart : ∀ cell ∈ frame, cell.slot.symbol < next ∨ table.size ≤ cell.slot.symbol
  nodup : (frame.map Cell.slot).Nodup

variable {table : SymbolTable} {returnType : Option Ty} {frame : Cells} {next next' : Nat}
  {s s' : Stage} {env : Env} {locals : Locals} {base : Scope}

section

variable (h : Laid table returnType frame next s)

include h

theorem Laid.steps (hsteps : Stage.Steps next s s')
    (hfit : s'.Fits) (hle : next ≤ next') : Laid table returnType frame next' s' := by
  refine ⟨h.keeps.trans hsteps.keeps, hsteps.sound hfit h.sound, ?_, ?_, ?_, ?_, h.nodup⟩
  · intro hreturn
    rw [hsteps.returnSlot, h.returns hreturn]
  · intro cell hmem
    rw [hsteps.lookup (h.symbols cell hmem), h.slots cell hmem]
  · exact fun cell hmem => Nat.lt_of_lt_of_le (h.symbols cell hmem) hle
  · exact fun cell hmem => (h.apart cell hmem).imp_left fun hlt => Nat.lt_of_lt_of_le hlt hle

theorem Laid.known : ∀ cell ∈ frame, cell.slot.symbol < s.draft.supply.symbols.size := by
  intro cell hmem
  obtain ⟨l, l', hsplit, -⟩ := List.lookup_eq_some_iff.1 (h.slots cell hmem)
  refine (h.sound.slots cell.slot (.inl ?_)).known
  rw [hsplit]
  simp

theorem Laid.slot_ne (hnext : next < table.size)
    {cell : Cell} (hmem : cell ∈ frame) : cell.slot.symbol ≠ next := by
  rcases h.apart cell hmem with hlt | hle
  · exact Nat.ne_of_lt hlt
  · exact Nat.ne_of_gt (Nat.lt_of_lt_of_le hnext hle)

theorem Laid.declare (hnext : next < table.size) (h' : Laid table returnType frame (next + 1) s')
    (hlookup : s'.draft.slots.lookup next = some { symbol := next }) (name : String) :
    Laid table returnType (⟨name, next, { symbol := next }⟩ :: frame) (next + 1) s' := by
  refine ⟨h'.keeps, h'.sound, h'.returns, ?_, ?_, ?_, ?_⟩
  · exact List.forall_mem_cons.2 ⟨hlookup, h'.slots⟩
  · exact List.forall_mem_cons.2 ⟨Nat.lt_succ_self _, h'.symbols⟩
  · exact List.forall_mem_cons.2 ⟨.inl (Nat.lt_succ_self _), h'.apart⟩
  · refine List.nodup_cons.2 ⟨fun hmem => ?_, h.nodup⟩
    obtain ⟨cell, hcell, hslot⟩ := List.mem_map.1 hmem
    exact h.slot_ne hnext hcell (congrArg Variable.symbol hslot)

end

theorem Holds.write {name : String} {symbol : SymbolId} {c : Constant}
    (hbase : ∀ name symbol, base.find? name ≠ some (.var symbol)) (hheld : Holds env frame locals)
    (hnodup : (frame.map Cell.slot).Nodup)
    (h : (frame.scope base).find? name = some (.var symbol)) :
    ∃ cell ∈ frame, cell.symbol = symbol ∧
      Holds (env.set cell.slot c) frame (locals.write name c) := by
  induction hheld with
  | nil => exact absurd h (hbase name symbol)
  | @cons cell x frame locals hcell hheld ih =>
    obtain ⟨n, value⟩ := x
    obtain ⟨hname, hvalue⟩ := hcell
    obtain ⟨hfirst, hnodup⟩ := List.nodup_cons.1 hnodup
    dsimp only at hname hvalue
    rw [find?_scope_cons, hname] at h
    rw [Locals.write]
    split at h <;> rename_i heq
    · cases h
      refine ⟨cell, List.mem_cons_self, rfl, ?_⟩
      rw [if_pos (beq_iff_eq.2 heq)]
      refine .cons ⟨hname, ?_⟩ (Holds.congr hheld ?_)
      · rintro _ ⟨⟩
        exact Env.set_self ..
      · intro other hmem
        apply Env.set_of_ne
        intro heq
        exact hfirst (heq ▸ List.mem_map_of_mem hmem)
    · obtain ⟨cell', hmem, hsymbol, hholds⟩ := ih hnodup h
      refine ⟨cell', List.mem_cons_of_mem _ hmem, hsymbol, ?_⟩
      rw [if_neg (by simp [heq])]
      refine .cons ⟨hname, fun c hc => ?_⟩ hholds
      rw [Env.set_of_ne, hvalue c hc]
      intro heq
      exact hfirst (heq ▸ List.mem_map_of_mem hmem)

theorem Holds.leave {cells : Cells} {outer : Locals} (h : Holds env (cells ++ frame) locals)
    (houter : frame.length = outer.length) : Holds env frame (locals.leave outer.length) := by
  have hlength := List.Forall₂.length_eq h
  rw [List.length_append, houter] at hlength
  have hcount : locals.length - outer.length = cells.length := by omega
  rw [Locals.leave, hcount]
  have hdrop := List.forall₂_drop cells.length h
  rwa [List.drop_left] at hdrop

end Cells

/-! ## Where statements end -/

/-- The code of a statement has done what the statement does, from a state on.  The
variables that are in sight behind it are where they should be, or the function
returns. -/
def Arrives (calls : Calls) (f : Function) (s : State) (draft : Draft)
    (holds : Env → Locals → Prop) : Outcome → Prop
  | .next locals =>
    draft.isTerminated = false ∧ ∃ env, Goes calls f s (draft.reached f env) ∧ holds env locals
  | .returned value =>
    ∃ env, Goes calls f s (f.arrive f.exit env) ∧ draft.returnSlot.map env = value

section

variable {calls : Calls} {f : Function} {s t : State} {draft draft' : Draft}
  {holds : Env → Locals → Prop} {outcome : Outcome} {pending : List BlockId}

theorem Arrives.of_goes (hgoes : Goes calls f s t) (h : Arrives calls f t draft holds outcome) :
    Arrives calls f s draft holds outcome := by
  cases outcome with
  | next locals =>
    obtain ⟨hopen, env, hgoes', hholds⟩ := h
    exact ⟨hopen, env, hgoes.trans hgoes', hholds⟩
  | returned value =>
    obtain ⟨env, hgoes', hvalue⟩ := h
    exact ⟨env, hgoes.trans hgoes', hvalue⟩

theorem Arrives.imp {holds' : Env → Locals → Prop} (h : Arrives calls f s draft holds outcome)
    (himp : ∀ env locals, holds env locals → holds' env locals) :
    Arrives calls f s draft holds' outcome := by
  cases outcome with
  | next locals =>
    obtain ⟨hopen, env, hgoes, hholds⟩ := h
    exact ⟨hopen, env, hgoes, himp env locals hholds⟩
  | returned value => exact h

/-- Going on from the end of a block, unless the function has returned. -/
theorem Arrives.join {id after : BlockId} (h : Arrives calls f s draft holds outcome)
    (hs : (draft.stage (id :: pending)).Sound) (hafter : after ∈ id :: pending)
    (hf : Stage.GrowsInto ⟨pending, (draft.jumpIfOpen after).enter id, true⟩ f)
    (hopen : draft'.isTerminated = false) (hreturn : draft'.returnSlot = draft.returnSlot)
    (hreached : ∀ env, draft'.reached f env = f.arrive after env) :
    Arrives calls f s draft' holds outcome := by
  cases outcome with
  | next locals =>
    obtain ⟨hcurrent, env, hgoes, hholds⟩ := h
    have hs : Stage.Sound ⟨id :: pending, draft, true⟩ := by
      rwa [Draft.stage, hcurrent] at hs
    refine ⟨hopen, env, hgoes.trans ?_, hholds⟩
    rw [hreached]
    exact Goes.join hs hafter hf env
  | returned value =>
    obtain ⟨env, hgoes, hvalue⟩ := h
    exact ⟨env, hgoes, hreturn ▸ hvalue⟩

theorem Goes.leave {target : BlockId} (hs : Stage.Sound ⟨pending, draft, true⟩)
    (htarget : draft.function.exit = target)
    (hf : Stage.GrowsInto ⟨pending, draft.jump target, false⟩ f) (env : Env) :
    Goes calls f (draft.reached f env) (f.arrive f.exit env) := by
  have hexit : f.exit = target := by
    rw [hf.exit, Draft.exit_jump, htarget]
  subst htarget
  rw [hexit]
  have hcurrent := (List.nodup_cons.1 hs.shaped.nodup).1
  refine Goes.jump hs List.mem_cons_self hf rfl ⟨?_, nofun⟩ env
  change draft.current ∉ (draft.jump _).function.exit :: pending
  rwa [Draft.exit_jump]

theorem Goes.declare {isOpen : Bool} {symbol : SymbolId} {slot : Variable} {ty : Ty}
    (hs : Stage.Sound ⟨pending, draft, true⟩)
    (hf : Stage.GrowsInto ⟨pending, (draft.emit [.alloca slot ty]).bindSlot symbol slot, isOpen⟩ f)
    (env : Env) :
    Goes calls f (draft.reached f env)
      (((draft.emit [.alloca slot ty]).bindSlot symbol slot).reached f env) := by
  have hf : Stage.GrowsInto ⟨pending, draft.extend [.alloca slot ty] draft.supply, isOpen⟩ f :=
    ⟨hf.exit, hf.blocks⟩
  exact Goes.extend hs hf (Computes.alloca calls f slot ty 0 env)

theorem Computes.store {l : List Instruction} {size : Nat} {env env' : Env}
    (h : Computes calls f l size env env') (slot : Variable) (value : Operand) (ty : Ty) :
    Computes calls f (l ++ [Instruction.store slot value ty]) 0 env
      (env'.set slot (value.value env')) :=
  Computes.snoc ⟨h.goes, nofun⟩ rfl (Nat.zero_le _)

end

end Flow

open Cinder.Flow

def Statement.frameAfter (frame : Cells) : Statement.Typed → Cells
  | .declare decl => ⟨decl.name.name, decl.symbol, { symbol := decl.symbol }⟩ :: frame
  | _ => frame

theorem Statement.scope_frameAfter (frame : Cells) (base : Scope)
    (statement : Statement.Typed) :
    (statement.frameAfter frame).scope base = statement.scopeAfter (frame.scope base) := by
  cases statement <;> rfl

/-! ## Statements without blocks -/

variable {pending : List BlockId} {draft : Draft}

namespace Statement

variable {calls : Calls} {f : Function} {results : Results} {base : Scope} {table : SymbolTable}
  {returnType : Option Ty} {frame : Cells} {next : Nat} {pending : List BlockId}
  {draft draft' : Draft} {locals : Locals} {outcome : Outcome} {env : Env}
  (houtside : ∀ name symbol, base.find? name ≠ some (.var symbol))
  (hserves : calls.Serves results base)
  (hlaid : frame.Laid table returnType next ⟨pending, draft, true⟩)
  (hheld : Cells.Holds env frame locals)

include houtside hserves hlaid hheld

variable {value : Expr.Typed} {span : Span}

theorem goes_save {code : Code} {slot : Variable} {ty ty' : Ty} {c : Constant}
    (hbound : value.Bound (frame.scope base)) (htype : value.HasType table ty')
    (hcode : value.lower draft.slots draft.supply = .ok code)
    (hf : Stage.Becomes ⟨pending, draft.save code slot ty, true⟩ f)
    (hc : value.eval results locals = some c) :
    ∃ env', Goes calls f (draft.reached f env)
      ((draft.save code slot ty).reached f (env'.set slot c)) ∧ Cells.Holds env' frame locals := by
  obtain ⟨env', hyields⟩ := Expr.yields_of_lower (f := f) ⟨houtside, hserves, hlaid.slots⟩ hbound
    htype hheld hlaid.known hcode hf.fits.symbols hc
  refine ⟨env', ?_, hheld.computes hyields.computes hlaid.known⟩
  rw [← hyields.value]
  exact .extend hlaid.sound hf.grows (hyields.computes.store ..)

theorem arrives_of_declare {decl : Local SymbolId (Option Ty)}
    (hbound : (Statement.declare decl).Bound (frame.scope base) next)
    (htype : (Statement.declare decl).WellTyped table returnType)
    (hlocals : table.Locals next 1)
    (hlower : (Statement.declare decl).lower draft = .ok draft')
    (hf : Stage.Becomes ⟨pending, draft', true⟩ f)
    (hexec : (Statement.declare decl).exec results locals = some outcome) :
    Arrives calls f (draft.reached f env) draft' (fun env locals =>
      Cells.Holds env ((Statement.declare decl).frameAfter frame) locals) outcome := by
  obtain ⟨hinit, rfl⟩ := hbound
  obtain ⟨name, ty, hget⟩ := hlocals decl.symbol (Nat.le_refl _) (Nat.lt_succ_self _)
  have hnext := SymbolTable.lt_size_of_get? hget
  have hget' := hlaid.keeps.get hget
  obtain ⟨ty', hty, hlower⟩ := exists_of_lower_declare hlower
  obtain ⟨name', origin, hget''⟩ := SymbolTable.type?_eq_some.1 (SymbolTable.typeOf_eq_ok.1 hty)
  cases hget'.symm.trans hget''
  have hdeclare : Stage.Step decl.symbol ⟨pending, draft, true⟩ _ := .declare (Nat.le_refl _) hget'
  have hsound := hlaid.sound.declare hget'
  rw [exec] at hexec
  obtain ⟨ty', -, htype⟩ := htype
  obtain ⟨hinitializer, rfl⟩ | ⟨initializer, code, hinitializer, hcode, rfl⟩ := hlower
  · rw [hinitializer] at hexec
    cases hexec
    exact ⟨hsound.isTerminated, env, .declare hlaid.sound hf.grows env, .cons ⟨rfl, nofun⟩ hheld⟩
  · rw [hinitializer] at hexec hinit htype
    obtain ⟨c, hc, hexec⟩ := Option.bind_eq_some_iff.1 hexec
    cases hexec
    have hsave : Stage.Step decl.symbol ⟨pending, _, true⟩ _ :=
      .save hcode (.inl List.mem_cons_self) ty
    have hfirst := Stage.Steps.becomes (.single hsave) hsound hf
    have hlaid' := hlaid.steps (.single hdeclare) hfirst.fits (Nat.le_refl _)
    obtain ⟨env', hgoes, hholds⟩ := goes_save houtside hserves hlaid' hheld (hinit _ rfl)
      (htype _ rfl) hcode hf hc
    refine ⟨(hsave.sound hf.fits hsound).isTerminated, _,
      (Goes.declare hlaid.sound hfirst.grows env).trans hgoes, .cons ⟨rfl, ?_⟩ ?_⟩
    · rintro _ ⟨⟩
      exact Env.set_self ..
    · refine hholds.congr fun cell hmem => Env.set_of_ne _ _ fun heq => ?_
      exact hlaid.slot_ne hnext hmem (congrArg Variable.symbol heq)

theorem arrives_of_assign {target : Ident} {symbol : SymbolId}
    (hbound : (Statement.assign span target symbol value).Bound (frame.scope base) next)
    (htype : (Statement.assign span target symbol value).WellTyped table returnType)
    (hlower : (Statement.assign span target symbol value).lower draft = .ok draft')
    (hf : Stage.Becomes ⟨pending, draft', true⟩ f)
    (hexec : (Statement.assign span target symbol value).exec results locals = some outcome) :
    Arrives calls f (draft.reached f env) draft' (fun env locals =>
      Cells.Holds env frame locals) outcome := by
  obtain ⟨slot, ty, code, hslot, hcode, rfl⟩ := exists_of_lower_assign hlower
  rw [exec] at hexec
  obtain ⟨c, hc, hexec⟩ := Option.bind_eq_some_iff.1 hexec
  cases hexec
  obtain ⟨ty', -, htype⟩ := htype
  have hsave : Stage.Step next _ ⟨pending, draft.save code slot ty, true⟩ :=
    .save hcode (.inl (Slots.mem_of_find hslot)) ty
  obtain ⟨env', hgoes, hholds⟩ := goes_save houtside hserves hlaid hheld hbound.1 htype hcode hf hc
  obtain ⟨cell, hmem, rfl, hholds⟩ := hholds.write (c := c) houtside hlaid.nodup hbound.2
  rw [Slots.find, hlaid.slots cell hmem] at hslot
  cases hslot
  exact ⟨(hsave.sound hf.fits hlaid.sound).isTerminated, _, hgoes, hholds⟩

theorem arrives_of_ret {value : Option Expr.Typed} {holds : Env → Locals → Prop}
    (hbound : (Statement.ret span value).Bound (frame.scope base) next)
    (htype : (Statement.ret span value).WellTyped table returnType)
    (hlower : (Statement.ret span value).lower draft = .ok draft')
    (hf : Stage.Becomes ⟨pending, draft', false⟩ f)
    (hexec : (Statement.ret span value).exec results locals = some outcome) :
    Arrives calls f (draft.reached f env) draft' holds outcome := by
  cases value with
  | none =>
    rw [lower] at hlower
    rw [exec] at hexec
    cases hlower
    cases hexec
    have hreturn : draft.returnSlot = none := hlaid.returns htype
    refine ⟨env, .leave hlaid.sound rfl hf.grows env, ?_⟩
    change draft.returnSlot.map env = none
    rw [hreturn, Option.map_none]
  | some value =>
    obtain ⟨slot, ty, code, hslot, hcode, rfl⟩ := exists_of_lower_ret hlower
    rw [exec] at hexec
    obtain ⟨c, hc, hexec⟩ := Option.bind_eq_some_iff.1 hexec
    cases hexec
    obtain ⟨ty', -, htype⟩ := htype
    have hexit : (draft.save code slot ty).function.exit = draft.function.exit :=
      Draft.exit_extend ..
    have hsave : Stage.Step next _ ⟨pending, draft.save code slot ty, true⟩ :=
      .save hcode (.inr hslot) ty
    have hleave : Stage.Step next ⟨pending, draft.save code slot ty, true⟩ _ := .leave_to hexit
    have hsound := hsave.sound (hleave.fits hf.fits) hlaid.sound
    obtain ⟨env', hgoes, -⟩ := goes_save houtside hserves hlaid hheld (hbound _ rfl) htype hcode
      (Stage.Steps.becomes (.single hleave) hsound hf) hc
    refine ⟨_, hgoes.trans (.leave hsound hexit hf.grows _), ?_⟩
    change draft.returnSlot.map _ = some c
    rw [hslot, Option.map_some, Env.set_self]

theorem goes_condition {condition : Expr.Typed} {code : Code} {ty : Ty}
    {c : Constant} (hbound : condition.Bound (frame.scope base))
    (htype : condition.HasType table ty)
    (hcode : condition.lower draft.slots draft.supply = .ok code)
    (hf : Stage.Becomes
      ⟨(draft.extend code.instructions code.supply).forkTargets.2.1 ::
        (draft.extend code.instructions code.supply).forkTargets.2.2 :: pending,
        (draft.extend code.instructions code.supply).fork code.value, true⟩ f)
    (hc : condition.eval results locals = some c) :
    ∃ env', Cells.Holds env' frame locals ∧
      (c.isZero = false → Goes calls f (draft.reached f env)
        (((draft.extend code.instructions code.supply).fork code.value).reached f env')) ∧
      (c.isZero = true → Goes calls f (draft.reached f env)
        (f.arrive (draft.extend code.instructions code.supply).forkTargets.2.1 env')) := by
  have hs := Expr.straight_of_lower draft.returnSlot hcode
  have hfork : Stage.Step next ⟨pending, draft, true⟩ _ := .fork hs.straight hs.value
  have hsound := hlaid.sound.extend hs.straight hf.fits.symbols
  have hfit : (draft.extend code.instructions code.supply).function.blocks.size + 3 ≤ UInt32.size :=
    Draft.size_fork (draft.extend code.instructions code.supply) code.value ▸ hf.fits.blocks
  obtain ⟨env', hyields⟩ := Expr.yields_of_lower (f := f) ⟨houtside, hserves, hlaid.slots⟩ hbound
    htype hheld hlaid.known hcode hf.fits.symbols hc
  have hgoes : Goes calls f (draft.reached f env) _ :=
    .extend hlaid.sound (hf.grows.of_fork hfit) hyields.computes
  refine ⟨env', hheld.computes hyields.computes hlaid.known, fun hzero => ?_, fun hzero => ?_⟩
  · rw [← hyields.value] at hzero
    exact hgoes.trans (.fork_taken hsound hfit hf.grows hzero)
  · rw [← hyields.value] at hzero
    exact hgoes.trans (.fork_passed hsound hfit hf.grows (hfork.sound hf.fits hlaid.sound) hzero)

theorem arrives_of_expr (hbound : (Statement.expr span value).Bound (frame.scope base) next)
    (htype : (Statement.expr span value).WellTyped table returnType)
    (hlower : (Statement.expr span value).lower draft = .ok draft')
    (hf : Stage.Becomes ⟨pending, draft', true⟩ f)
    (hexec : (Statement.expr span value).exec results locals = some outcome) :
    Arrives calls f (draft.reached f env) draft' (fun env locals =>
      Cells.Holds env frame locals) outcome := by
  rw [lower] at hlower
  obtain ⟨⟨instructions, supply⟩, heffect, hlower⟩ := bind_eq_ok.1 hlower
  rw [exec] at hexec
  obtain ⟨⟨⟩, heval, hexec⟩ := Option.bind_eq_some_iff.1 hexec
  cases hexec
  cases hlower
  have hs := Expr.straight_of_lowerEffect draft.returnSlot heffect
  obtain ⟨env', hcomputes⟩ := Expr.computes_of_lowerEffect (f := f)
    ⟨houtside, hserves, hlaid.slots⟩ hbound htype hheld hlaid.known heffect hf.fits.symbols heval
  exact ⟨(hlaid.sound.extend hs hf.fits.symbols).isTerminated, env',
    .extend hlaid.sound hf.grows hcomputes, hheld.computes hcomputes hlaid.known⟩

end Statement

/-- Behind a block, the draft goes on in a block that has nothing but its label. -/
theorem Flow.Stage.Sound.reached_join {f : Function} {isOpen : Bool} {id after : BlockId}
    (hs : Stage.Sound ⟨id :: pending, draft, isOpen⟩) (hafter : after ∈ id :: pending) (env : Env) :
    ((draft.jumpIfOpen after).enter id).reached f env = f.arrive id env := by
  have hjump := hs.jumpIfOpen (List.mem_cons_of_mem _ hafter)
  exact Draft.reached_enter
    (hjump.shaped.waiting id (List.mem_cons_of_mem _ List.mem_cons_self)) env

/-! ## Faithful code -/

section

variable (calls : Calls) (f : Function) (results : Results) (table : SymbolTable)
  (returnType : Option Ty) (frame : Cells) (next : Nat)

/-- Wherever it is added to a draft that becomes the function, the code of a
statement does what the statement does. -/
def Statement.Faithful (statement : Statement.Typed) : Prop :=
  ∀ pending draft draft' locals env outcome,
    frame.Laid table returnType next ⟨pending, draft, true⟩ → statement.lower draft = .ok draft' →
      (draft'.stage pending).Becomes f → Cells.Holds env frame locals →
      statement.exec results locals = some outcome →
        Arrives calls f (draft.reached f env) draft'
          (fun env locals => Cells.Holds env (statement.frameAfter frame) locals) outcome

def Block.Faithful (block : Block.Typed) : Prop :=
  ∀ pending draft draft' locals env outcome,
    frame.Laid table returnType next ⟨pending, draft, true⟩ → block.lower draft = .ok draft' →
      (draft'.stage pending).Becomes f → Cells.Holds env frame locals →
      block.exec results locals = some outcome →
        Arrives calls f (draft.reached f env) draft'
          (fun env locals => Cells.Holds env frame locals) outcome

def Statement.AllFaithful (statements : List Statement.Typed) : Prop :=
  ∀ pending draft draft' locals env outcome,
    frame.Laid table returnType next ⟨pending, draft, true⟩ →
      Statement.lowerAll draft statements = .ok draft' →
      (draft'.stage pending).Becomes f → Cells.Holds env frame locals →
      Statement.execAll results locals statements = some outcome →
        Arrives calls f (draft.reached f env) draft'
          (fun env locals => ∃ cells, Cells.Holds env (cells ++ frame) locals) outcome

end

theorem Flow.Stage.Steps.to_stage {first : Nat} {s : Stage} {isOpen : Bool}
    (h : Stage.Steps first s ⟨pending, draft, isOpen⟩) (hs : s.Sound)
    (hfit : (draft.stage pending).Fits) : Stage.Steps first s (draft.stage pending) := by
  rwa [(h.sound ⟨hfit.symbols, hfit.blocks⟩ hs).stage_eq]

/-- The stages of a conditional statement up to its second block: the first block begins
at the fork, ends somewhere, and the other block is entered. -/
structure Flow.Stage.Forked (table : SymbolTable) (returnType : Option Ty) (frame : Cells)
    (next next' : Nat) (pending : List BlockId) (draft forked : Draft) (value : Operand)
    (ended : Draft) : Prop where
  fork : Stage.Step next ⟨pending, draft, true⟩
    ⟨forked.forkTargets.2.1 :: forked.forkTargets.2.2 :: pending, forked.fork value, true⟩
  fits : Stage.Fits
    ⟨forked.forkTargets.2.1 :: forked.forkTargets.2.2 :: pending, forked.fork value, true⟩
  laid : frame.Laid table returnType next
    ⟨forked.forkTargets.2.1 :: forked.forkTargets.2.2 :: pending, forked.fork value, true⟩
  steps : Stage.Steps next
    ⟨forked.forkTargets.2.1 :: forked.forkTargets.2.2 :: pending, forked.fork value, true⟩
    (ended.stage (forked.forkTargets.2.1 :: forked.forkTargets.2.2 :: pending))
  fits_ended : (ended.stage (forked.forkTargets.2.1 :: forked.forkTargets.2.2 :: pending)).Fits
  join : Stage.Step next
    (ended.stage (forked.forkTargets.2.1 :: forked.forkTargets.2.2 :: pending))
    ⟨forked.forkTargets.2.2 :: pending,
      (ended.jumpIfOpen forked.forkTargets.2.2).enter forked.forkTargets.2.1, true⟩
  laid_other : frame.Laid table returnType next' ⟨forked.forkTargets.2.2 :: pending,
    (ended.jumpIfOpen forked.forkTargets.2.2).enter forked.forkTargets.2.1, true⟩

section

variable {calls : Calls} {f : Function} {results : Results} {base : Scope} {table : SymbolTable}
  {returnType : Option Ty} {frame : Cells} {next : Nat}

variable {draft ended : Draft} {condition : Expr.Typed}
  {positive : Block.Typed} {scope : Scope}

theorem Flow.Stage.Forked.sound_ended {next' : Nat} {pending : List BlockId} {forked : Draft}
    {value : Operand}
    (h : Stage.Forked table returnType frame next next' pending draft forked value ended) :
    (ended.stage (forked.forkTargets.2.1 :: forked.forkTargets.2.2 :: pending)).Sound :=
  h.steps.sound h.fits_ended h.laid.sound

theorem Statement.keeps_of_fork {code : Code} {after id : BlockId}
    (hkeeps : table.Keeps draft.supply.symbols)
    (hcode : condition.lower draft.slots draft.supply = .ok code)
    (hblock : positive.lower ((draft.extend code.instructions code.supply).fork code.value) =
      .ok ended) :
    table.Keeps ((ended.jumpIfOpen after).enter id).supply.symbols := by
  have hkeeps₁ : code.supply.symbols.Keeps ended.supply.symbols := Block.keeps_of_lower hblock
  simp only [Draft.enter, Draft.supply_jumpIfOpen]
  exact (hkeeps.trans (Expr.keeps_of_lower hcode)).trans hkeeps₁

/-- Handles that fit at the second block have fitted before, and drafts stay sound. -/
theorem Statement.forked_of_lower {pending : List BlockId} {forked : Draft} {code : Code}
    (hlaid : frame.Laid table returnType next ⟨pending, draft, true⟩)
    (hcode : condition.lower draft.slots draft.supply = .ok code)
    (hforked : draft.extend code.instructions code.supply = forked)
    (hbound : positive.Bound scope next) (hlocals : table.Locals next positive.declarations)
    (hblock : positive.lower (forked.fork code.value) = .ok ended)
    (hfits : Stage.Fits ⟨forked.forkTargets.2.2 :: pending,
      (ended.jumpIfOpen forked.forkTargets.2.2).enter forked.forkTargets.2.1, true⟩) :
    Stage.Forked table returnType frame next (next + positive.declarations) pending draft forked
      code.value ended := by
  have hs := Expr.straight_of_lower draft.returnSlot hcode
  have hfork : Stage.Step next ⟨pending, draft, true⟩
      ⟨forked.forkTargets.2.1 :: forked.forkTargets.2.2 :: pending, forked.fork code.value, true⟩ :=
    hforked ▸ .fork hs.straight hs.value
  obtain ⟨isOpen, hsteps⟩ := Block.steps_of_lower (hlaid.keeps.trans hfork.keeps)
    (forked.forkTargets.2.1 :: forked.forkTargets.2.2 :: pending) hbound hlocals hblock
  have hjoin : Stage.Step next
      (ended.stage (forked.forkTargets.2.1 :: forked.forkTargets.2.2 :: pending)) _ :=
    .join (List.mem_cons_of_mem _ List.mem_cons_self)
  have hfits₁ := hjoin.fits hfits
  have hfits₀ := Stage.Steps.fits hsteps ⟨hfits₁.symbols, hfits₁.blocks⟩
  have hlaid₀ := hlaid.steps (.single hfork) hfits₀ (Nat.le_refl _)
  have hsteps := hsteps.to_stage hlaid₀.sound hfits₁
  exact ⟨hfork, hfits₀, hlaid₀, hsteps, hfits₁, hjoin,
    hlaid₀.steps (hsteps.tail hjoin) hfits (Nat.le_add_right ..)⟩

/-- The parts of a conditional statement that has been lowered. -/
theorem Statement.exists_forked {span : Span} {negative : Block.Typed} {pending : List BlockId}
    {draft' : Draft} (hlaid : frame.Laid table returnType next ⟨pending, draft, true⟩)
    (hbound : (Statement.ifElse span condition positive negative).Bound scope next)
    (hlocals : table.Locals next (positive.declarations + negative.declarations))
    (hlower : (Statement.ifElse span condition positive negative).lower draft = .ok draft')
    (hfits : (draft'.stage pending).Fits) :
    ∃ code draft₁ draft₂, condition.lower draft.slots draft.supply = .ok code ∧
      let forked := draft.extend code.instructions code.supply
      let otherwise := forked.forkTargets.2.1
      let after := forked.forkTargets.2.2
      positive.lower (forked.fork code.value) = .ok draft₁ ∧
      negative.lower ((draft₁.jumpIfOpen after).enter otherwise) = .ok draft₂ ∧
      draft' = (draft₂.jumpIfOpen after).enter after ∧
      Stage.Forked table returnType frame next (next + positive.declarations) pending draft forked
        code.value draft₁ ∧
      Stage.Steps (next + positive.declarations)
        ⟨after :: pending, (draft₁.jumpIfOpen after).enter otherwise, true⟩
        (draft₂.stage (after :: pending)) ∧
      (draft₂.stage (after :: pending)).Fits ∧
      Stage.Step next (draft₂.stage (after :: pending)) ⟨pending, draft', true⟩ := by
  rw [Statement.lower_ifElse] at hlower
  obtain ⟨code, hcode, hlower⟩ := bind_eq_ok.1 hlower
  obtain ⟨draft₁, hblock, hlower⟩ := bind_eq_ok.1 hlower
  obtain ⟨draft₂, hblock', hlower⟩ := bind_eq_ok.1 hlower
  cases hlower
  let after := (draft.extend code.instructions code.supply).forkTargets.2.2
  obtain ⟨isOpen, hsteps⟩ := Block.steps_of_lower (Statement.keeps_of_fork hlaid.keeps hcode hblock)
    (after :: pending) hbound.2.2 (hlocals.mono (by omega) (by omega)) hblock'
  have hjoin : Stage.Step next (draft₂.stage (after :: pending)) ⟨pending, _, true⟩ :=
    .join List.mem_cons_self
  have hfits₂ := hjoin.fits ⟨hfits.symbols, hfits.blocks⟩
  have hforked := Statement.forked_of_lower hlaid hcode rfl hbound.2.1
    (hlocals.mono (Nat.le_refl _) (by omega)) hblock
    (Stage.Steps.fits hsteps ⟨hfits₂.symbols, hfits₂.blocks⟩)
  exact ⟨code, draft₁, draft₂, hcode, hblock, hblock', rfl, hforked,
    hsteps.to_stage hforked.laid_other.sound hfits₂, hfits₂, hjoin⟩

theorem Statement.laid_frameAfter {statement : Statement.Typed}
    {pending : List BlockId} {draft' : Draft} {isOpen : Bool} (hbound : statement.Bound scope next)
    (hlocals : table.Locals next statement.declarations)
    (hlaid : frame.Laid table returnType next ⟨pending, draft, true⟩)
    (hlower : statement.lower draft = .ok draft')
    (hlaid' : frame.Laid table returnType (next + statement.declarations)
      ⟨pending, draft', isOpen⟩) :
    (statement.frameAfter frame).Laid table returnType (next + statement.declarations)
      ⟨pending, draft', isOpen⟩ := by
  cases statement with
  | declare decl =>
    obtain ⟨-, rfl⟩ := hbound
    obtain ⟨name, ty, hget⟩ := hlocals decl.symbol (Nat.le_refl _) (Nat.lt_succ_self _)
    refine hlaid.declare (SymbolTable.lt_size_of_get? hget) hlaid' ?_ decl.name.name
    rw [Statement.slots_of_lower_declare hlower, List.lookup_cons, beq_self_eq_true]
  | _ => exact hlaid'

theorem Statement.exists_frameAfter (frame : Cells) (statement : Statement.Typed) :
    ∃ cells, statement.frameAfter frame = cells ++ frame := by
  cases statement with
  | declare decl => exact ⟨[_], rfl⟩
  | _ => exact ⟨[], rfl⟩

theorem Statement.exists_of_lowerAll_cons {statement : Statement.Typed}
    {rest : List Statement.Typed} {pending : List BlockId} {draft' : Draft}
    (hlaid : frame.Laid table returnType next ⟨pending, draft, true⟩)
    (hbound : Statement.BoundAll scope next (statement :: rest))
    (hlocals : table.Locals next (statement.declarations + Statement.declarationsAll rest))
    (hret : statement.isReturn = false)
    (hlower : Statement.lowerAll draft (statement :: rest) = .ok draft')
    (hfits : (draft'.stage pending).Fits) :
    ∃ draft₁, statement.lower draft = .ok draft₁ ∧ Statement.lowerAll draft₁ rest = .ok draft' ∧
      Stage.Steps next ⟨pending, draft, true⟩ ⟨pending, draft₁, true⟩ ∧
      (statement.frameAfter frame).Laid table returnType (next + statement.declarations)
        ⟨pending, draft₁, true⟩ ∧
      Stage.Steps (next + statement.declarations) ⟨pending, draft₁, true⟩
        (draft'.stage pending) := by
  rw [Statement.lowerAll_cons hret] at hlower
  obtain ⟨draft₁, hlower₁, hlower⟩ := bind_eq_ok.1 hlower
  have hlocals₁ : table.Locals next statement.declarations :=
    hlocals.mono (Nat.le_refl _) (by omega)
  have hsteps₁ := Statement.steps_of_lower hlaid.keeps pending hbound.1 hlocals₁ hlower₁
  rw [hret] at hsteps₁
  obtain ⟨isOpen, hsteps₂⟩ := Statement.steps_of_lowerAll (hlaid.keeps.trans hsteps₁.keeps)
    pending hbound.2 (hlocals.mono (by omega) (by omega)) hlower
  have hfits₁ := Stage.Steps.fits hsteps₂ ⟨hfits.symbols, hfits.blocks⟩
  have hlaid₁ := Statement.laid_frameAfter hbound.1 hlocals₁ hlaid hlower₁
    (hlaid.steps hsteps₁ hfits₁ (Nat.le_add_right ..))
  exact ⟨draft₁, hlower₁, hlower, hsteps₁, hlaid₁, hsteps₂.to_stage hlaid₁.sound hfits⟩

theorem Statement.allFaithful_cons {statement : Statement.Typed}
    {rest : List Statement.Typed}
    (hbound : Statement.BoundAll scope next (statement :: rest))
    (hlocals : table.Locals next (statement.declarations + Statement.declarationsAll rest))
    (hfirst : statement.Faithful calls f results table returnType frame next)
    (hrest : Statement.AllFaithful calls f results table returnType (statement.frameAfter frame)
      (next + statement.declarations) rest) :
    Statement.AllFaithful calls f results table returnType frame next (statement :: rest) := by
  intro pending draft draft' locals env outcome hlaid hlower hf hheld hexec
  rw [Statement.execAll] at hexec
  obtain ⟨ended, hended, hexec⟩ := Option.bind_eq_some_iff.1 hexec
  cases hret : statement.isReturn with
  | true =>
    cases statement with
    | ret span value =>
      rw [Statement.lowerAll] at hlower
      have harrives := hfirst _ _ _ _ _ _ hlaid hlower hf hheld hended
      obtain ⟨result, rfl⟩ := Statement.returned_of_ret hended
      cases hexec
      exact harrives
    | _ => cases hret
  | false =>
    obtain ⟨draft₁, hlower₁, hlower, -, hlaid₁, hsteps₂⟩ :=
      Statement.exists_of_lowerAll_cons hlaid hbound hlocals hret hlower hf.fits
    have hf₁ := Stage.Steps.becomes hsteps₂ hlaid₁.sound hf
    have harrives := hfirst _ _ _ _ _ _ hlaid hlower₁ (hlaid₁.sound.stage_eq ▸ hf₁) hheld hended
    cases ended with
    | next locals₁ =>
      obtain ⟨-, env₁, hgoes, hholds⟩ := harrives
      have harrives := hrest _ _ _ _ _ _ hlaid₁ hlower hf hholds hexec
      refine Arrives.of_goes hgoes (harrives.imp fun env locals ⟨cells, hholds⟩ => ?_)
      obtain ⟨more, hmore⟩ := statement.exists_frameAfter frame
      rw [hmore, ← List.append_assoc] at hholds
      exact ⟨_, hholds⟩
    | returned value =>
      cases hexec
      obtain ⟨env₁, hgoes, hvalue⟩ := harrives
      exact ⟨env₁, hgoes, hsteps₂.returnSlot ▸ hvalue⟩

theorem Statement.allFaithful_nil :
    Statement.AllFaithful calls f results table returnType frame next [] := by
  intro pending draft draft' locals env outcome hlaid hlower hf hheld hexec
  cases hlower
  cases hexec
  exact ⟨hlaid.sound.isTerminated, env, .refl .., [], hheld⟩

theorem Statement.AllFaithful.block {statements : List Statement.Typed} {span : Span}
    (h : Statement.AllFaithful calls f results table returnType frame next statements) :
    (Block.mk span statements).Faithful calls f results table returnType frame next := by
  intro pending draft draft' locals env outcome hlaid hlower hf hheld hexec
  rw [Block.lower] at hlower
  rw [Block.exec] at hexec
  obtain ⟨inner, hinner, hexec⟩ := Option.bind_eq_some_iff.1 hexec
  have harrives := h _ _ _ _ _ _ hlaid hlower hf hheld hinner
  cases inner with
  | next inner =>
    cases hexec
    obtain ⟨hopen, env', hgoes, cells, hholds⟩ := harrives
    exact ⟨hopen, env', hgoes, hholds.leave (List.Forall₂.length_eq hheld)⟩
  | returned value =>
    cases hexec
    exact harrives

variable (houtside : ∀ name symbol, base.find? name ≠ some (.var symbol))
  (hserves : calls.Serves results base)

include houtside hserves

theorem Statement.faithful_ifElse {span : Span} {negative : Block.Typed}
    (hbound : (Statement.ifElse span condition positive negative).Bound (frame.scope base) next)
    (htype : (Statement.ifElse span condition positive negative).WellTyped table returnType)
    (hlocals : table.Locals next (positive.declarations + negative.declarations))
    (hpositive : positive.Faithful calls f results table returnType frame next)
    (hnegative : negative.Faithful calls f results table returnType frame
      (next + positive.declarations)) :
    (Statement.ifElse span condition positive negative).Faithful calls f results table returnType
      frame next := by
  intro pending draft draft' locals env outcome hlaid hlower hf hheld hexec
  obtain ⟨code, draft₁, draft₂, hcode, hblock, hblock', rfl, hforked, hsteps, hfits₃, hjoin'⟩ :=
    Statement.exists_forked hlaid hbound hlocals hlower hf.fits
  have hsound₁ := hforked.sound_ended
  have hsound₃ := hsteps.sound hfits₃ hforked.laid_other.sound
  have hsound₄ := hjoin'.sound ⟨hf.fits.symbols, hf.fits.blocks⟩ hsound₃
  rw [hsound₄.stage_eq] at hf
  have hf₃ := Stage.Steps.becomes (.single hjoin') hsound₃ hf
  have hf₂ := Stage.Steps.becomes hsteps hforked.laid_other.sound hf₃
  have hf₁ := Stage.Steps.becomes (.single hforked.join) hsound₁ hf₂
  obtain ⟨c, hc, hexec⟩ := Option.bind_eq_some_iff.1 hexec
  obtain ⟨env', hheld', htaken, hpassed⟩ := Statement.goes_condition houtside hserves hlaid hheld
    hbound.1 htype.1 hcode (Stage.Steps.becomes hforked.steps hforked.laid.sound hf₁) hc
  have hopen := hsound₄.isTerminated
  have hreached := hsound₃.reached_join (f := f) List.mem_cons_self
  split at hexec
  · rename_i hzero
    have harrives := hnegative _ _ _ _ _ _ hforked.laid_other hblock' hf₃ hheld' hexec
    refine (harrives.join hsound₃ List.mem_cons_self hf.grows hopen hjoin'.returnSlot
      hreached).of_goes ?_
    rw [hsound₁.reached_join (List.mem_cons_of_mem _ List.mem_cons_self)]
    exact hpassed hzero
  · rename_i hzero
    have harrives := hpositive _ _ _ _ _ _ hforked.laid hblock hf₁ hheld' hexec
    refine (harrives.join hsound₁ (List.mem_cons_of_mem _ List.mem_cons_self) hf₂.grows hopen ?_
      hreached).of_goes (htaken (by simpa using hzero))
    exact (hjoin'.returnSlot.trans hsteps.returnSlot).trans hforked.join.returnSlot

end

section

variable {calls : Calls} {f : Function} {results : Results} {base : Scope} {table : SymbolTable}
  {returnType : Option Ty}

mutual

/-- The code of well-typed statements is faithful. -/
theorem Statement.faithful (houtside : ∀ name symbol, base.find? name ≠ some (.var symbol))
    (hserves : calls.Serves results base) :
    ∀ {statement : Statement.Typed} {frame : Cells} {next : Nat},
      statement.Bound (frame.scope base) next → statement.WellTyped table returnType →
      table.Locals next statement.declarations →
        statement.Faithful calls f results table returnType frame next
  | .declare decl, frame, next, hbound, htype, hlocals => by
    intro pending draft draft' locals env outcome hlaid hlower hf hheld hexec
    have hsteps := Statement.steps_of_lower hlaid.keeps pending hbound hlocals hlower
    rw [(hsteps.sound ⟨hf.fits.symbols, hf.fits.blocks⟩ hlaid.sound).stage_eq] at hf
    exact Statement.arrives_of_declare houtside hserves hlaid hheld hbound htype hlocals hlower hf
      hexec
  | .assign .., frame, next, hbound, htype, hlocals => by
    intro pending draft draft' locals env outcome hlaid hlower hf hheld hexec
    have hsteps := Statement.steps_of_lower hlaid.keeps pending hbound hlocals hlower
    rw [(hsteps.sound ⟨hf.fits.symbols, hf.fits.blocks⟩ hlaid.sound).stage_eq] at hf
    exact Statement.arrives_of_assign houtside hserves hlaid hheld hbound htype hlower hf hexec
  | .ret .., frame, next, hbound, htype, hlocals => by
    intro pending draft draft' locals env outcome hlaid hlower hf hheld hexec
    have hsteps := Statement.steps_of_lower hlaid.keeps pending hbound hlocals hlower
    rw [(hsteps.sound ⟨hf.fits.symbols, hf.fits.blocks⟩ hlaid.sound).stage_eq] at hf
    exact Statement.arrives_of_ret houtside hserves hlaid hheld hbound htype hlower hf hexec
  | .expr .., frame, next, hbound, htype, hlocals => by
    intro pending draft draft' locals env outcome hlaid hlower hf hheld hexec
    have hsteps := Statement.steps_of_lower hlaid.keeps pending hbound hlocals hlower
    rw [(hsteps.sound ⟨hf.fits.symbols, hf.fits.blocks⟩ hlaid.sound).stage_eq] at hf
    exact Statement.arrives_of_expr houtside hserves hlaid hheld hbound htype hlower hf hexec
  | .ifThen span condition positive, frame, next, hbound, htype, hlocals => by
    have hpositive := Block.faithful houtside hserves hbound.2 htype.2 hlocals
    have hboth : (Statement.ifElse span condition positive (.mk span [])).Faithful calls f results
        table returnType frame next :=
      Statement.faithful_ifElse houtside hserves ⟨hbound.1, hbound.2, trivial⟩
        ⟨htype.1, htype.2, trivial⟩ hlocals hpositive Statement.allFaithful_nil.block
    intro pending draft draft' locals env outcome hlaid hlower hf hheld hexec
    rw [Statement.lower_ifThen_eq] at hlower
    rw [Statement.exec_ifThen] at hexec
    exact hboth _ _ _ _ _ _ hlaid hlower hf hheld hexec
  | .ifElse _ _ positive negative, frame, next, hbound, htype, hlocals => by
    have hlocals : table.Locals next (positive.declarations + negative.declarations) := hlocals
    have hpositive := Block.faithful houtside hserves hbound.2.1 htype.2.1
      (hlocals.mono (Nat.le_refl _) (by omega))
    have hnegative := Block.faithful houtside hserves hbound.2.2 htype.2.2
      (hlocals.mono (by omega) (by omega))
    exact Statement.faithful_ifElse houtside hserves hbound htype hlocals hpositive hnegative

theorem Block.faithful (houtside : ∀ name symbol, base.find? name ≠ some (.var symbol))
    (hserves : calls.Serves results base) :
    ∀ {block : Block.Typed} {frame : Cells} {next : Nat},
      block.Bound (frame.scope base) next → block.WellTyped table returnType →
      table.Locals next block.declarations →
        block.Faithful calls f results table returnType frame next
  | .mk .., _, _, hbound, htype, hlocals =>
    (Statement.allFaithful houtside hserves hbound htype hlocals).block

theorem Statement.allFaithful (houtside : ∀ name symbol, base.find? name ≠ some (.var symbol))
    (hserves : calls.Serves results base) :
    ∀ {statements : List Statement.Typed} {frame : Cells} {next : Nat},
      Statement.BoundAll (frame.scope base) next statements →
      Statement.AllWellTyped table returnType statements →
      table.Locals next (Statement.declarationsAll statements) →
        Statement.AllFaithful calls f results table returnType frame next statements
  | [], _, _, _, _, _ => Statement.allFaithful_nil
  | statement :: rest, frame, next, hbound, htype, hlocals => by
    have hlocals : table.Locals next
      (statement.declarations + Statement.declarationsAll rest) := hlocals
    have hfirst := Statement.faithful houtside hserves hbound.1 htype.1
      (hlocals.mono (Nat.le_refl _) (by omega))
    have hscope := hbound.2
    rw [← Statement.scope_frameAfter] at hscope
    have hrest := Statement.allFaithful houtside hserves hscope htype.2
      (hlocals.mono (by omega) (by omega))
    exact Statement.allFaithful_cons hbound hlocals hfirst hrest

end

end

end Cinder
