import Cinder.Proofs.Flow.Semantics
import Cinder.Proofs.Flow.Shaping
import Cinder.Proofs.Program.Evaluation
import Cinder.Proofs.Typing.Judgement

/-!
# Code of expressions

The instructions of an expression compute its value.  They write new temporaries
only, so what older variables hold stays the same.
-/

namespace Cinder

variable {events : List Event} {name : String} {symbol : SymbolId}

namespace Flow

def Goes (calls : Calls) (f : Function) (s t : State) : Prop :=
  ∃ events, Steps calls f s events t

namespace Goes

variable {calls : Calls} {f : Function} {s t u : State}

theorem refl (calls : Calls) (f : Function) (s : State) : Goes calls f s s :=
  ⟨[], .refl⟩

theorem trans (h : Goes calls f s t) (h' : Goes calls f t u) : Goes calls f s u := by
  obtain ⟨events, hsteps⟩ := h
  obtain ⟨events', hsteps'⟩ := h'
  exact ⟨events ++ events', hsteps.trans hsteps'⟩

theorem step (h : Step calls f s events t) : Goes calls f s t :=
  ⟨events, .single h⟩

end Goes

/-- The instructions take one environment to another, wherever they stand, and
leave the variables of old symbols alone. -/
structure Computes (calls : Calls) (f : Function) (l : List Instruction) (size : Nat)
    (env env' : Env) : Prop where
  goes : ∀ id rest, Goes calls f ⟨id, l ++ rest, env⟩ ⟨id, rest, env'⟩
  frame : ∀ v : Variable, v.symbol < size → env' v = env v

namespace Computes

variable {calls : Calls} {f : Function} {l l' : List Instruction} {size size' : Nat}
  {env env' env'' : Env}

theorem nil (calls : Calls) (f : Function) (size : Nat) (env : Env) :
    Computes calls f [] size env env :=
  ⟨fun _ _ => .refl .., fun _ _ => rfl⟩

theorem append (h : Computes calls f l size env env') (h' : Computes calls f l' size' env' env'')
    (hle : size ≤ size') : Computes calls f (l ++ l') size env env'' := by
  refine ⟨fun id rest => ?_, fun v hv => ?_⟩
  · rw [List.append_assoc]
    exact (h.goes id (l' ++ rest)).trans (h'.goes id rest)
  · rw [h'.frame v (Nat.lt_of_lt_of_le hv hle), h.frame v hv]

theorem alloca (calls : Calls) (f : Function) (slot : Variable) (ty : Ty) (size : Nat) (env : Env) :
    Computes calls f [.alloca slot ty] size env env :=
  ⟨fun _ _ => .step (.plain rfl), fun _ _ => rfl⟩

theorem snoc {i : Instruction} {v : Variable} {c : Constant} (h : Computes calls f l size env env')
    (hi : i.effect env' = some (env'.set v c)) (hv : size ≤ v.symbol) :
    Computes calls f (l ++ [i]) size env (env'.set v c) := by
  refine ⟨fun id rest => ?_, fun u hu => ?_⟩
  · rw [List.append_assoc]
    exact (h.goes id ([i] ++ rest)).trans (.step (.plain hi))
  · have hne : u ≠ v := by
      rintro rfl
      exact absurd hu (Nat.not_lt.2 hv)
    rw [Env.set_of_ne _ _ hne, h.frame u hu]

/-- One more call, whose result goes to a variable of a new symbol, if anywhere. -/
theorem snoc_call {result : Option Variable} {callee : SymbolId} {arguments : List Operand}
    {value : Option Constant} (h : Computes calls f l size env env')
    (hcall : calls callee (arguments.map (Operand.value env')) events value)
    (hresult : ∀ v, result = some v → size ≤ v.symbol) :
    Computes calls f (l ++ [Instruction.call result callee arguments]) size env
      (env'.receive result value) := by
  refine ⟨fun id rest => ?_, fun u hu => ?_⟩
  · rw [List.append_assoc]
    exact (h.goes id _).trans (.step (.call hcall))
  · rw [← h.frame u hu]
    cases result with
    | none => rfl
    | some v =>
      cases value with
      | none => rfl
      | some c =>
        apply Env.set_of_ne
        rintro rfl
        exact absurd hu (Nat.not_lt.2 (hresult u rfl))

end Computes

/-! ## Variables in sight -/

/-- A variable in sight: its name, its symbol, and the slot that holds its value. -/
structure Cell where
  name : String
  symbol : SymbolId
  slot : Variable

/-- The variables in sight, innermost declaration first. -/
abbrev Cells := List Cell

namespace Cells

/-- What names stand for, with some functions outside. -/
def scope (frame : Cells) (base : Scope) : Scope :=
  frame.map (fun cell => (cell.name, .var cell.symbol)) ++ base

def Holds (env : Env) (frame : Cells) (locals : Locals) : Prop :=
  List.Forall₂ (fun cell x => cell.name = x.1 ∧ ∀ c, x.2 = some c → env cell.slot = c) frame locals

variable {frame : Cells} {locals : Locals} {env env' : Env} {base : Scope}

theorem Holds.congr (h : Holds env frame locals)
    (hsame : ∀ cell ∈ frame, env' cell.slot = env cell.slot) : Holds env' frame locals :=
  forall₂_imp_of_mem
    (fun hmem _ hcell => ⟨hcell.1, fun c hc => (hsame _ hmem).trans (hcell.2 c hc)⟩) h

theorem Holds.computes {calls : Calls} {f : Function} {l : List Instruction} {size : Nat}
    (h : Holds env frame locals) (hcomputes : Computes calls f l size env env')
    (hknown : ∀ cell ∈ frame, cell.slot.symbol < size) : Holds env' frame locals :=
  h.congr fun cell hmem => hcomputes.frame cell.slot (hknown cell hmem)

theorem find?_scope_cons (cell : Cell) : (Cells.scope (cell :: frame) base).find? name =
    if name = cell.name then some (.var cell.symbol) else (frame.scope base).find? name :=
  Scope.find?_declare ..

theorem exists_cell (hbase : ∀ name symbol, base.find? name ≠ some (.var symbol))
    (h : (frame.scope base).find? name = some (.var symbol)) :
    ∃ cell ∈ frame, cell.symbol = symbol := by
  induction frame with
  | nil => exact absurd h (hbase name symbol)
  | cons cell frame ih =>
    rw [find?_scope_cons] at h
    split at h
    · cases h
      exact ⟨cell, List.mem_cons_self, rfl⟩
    · obtain ⟨cell', hmem, hsymbol⟩ := ih h
      exact ⟨cell', List.mem_cons_of_mem _ hmem, hsymbol⟩

theorem Holds.read {c : Constant} (hbase : ∀ name symbol, base.find? name ≠ some (.var symbol))
    (hheld : Holds env frame locals) (h : (frame.scope base).find? name = some (.var symbol))
    (hread : locals.read name = some c) :
    ∃ cell ∈ frame, cell.symbol = symbol ∧ env cell.slot = c := by
  induction hheld with
  | nil => exact absurd h (hbase name symbol)
  | @cons cell x frame locals hcell hheld ih =>
    obtain ⟨n, value⟩ := x
    have hread : (((n, value) :: locals).lookup name).join = some c := hread
    obtain ⟨hname, hvalue⟩ := hcell
    dsimp only at hname hvalue
    rw [find?_scope_cons, hname] at h
    rw [List.lookup_cons] at hread
    split at h <;> rename_i heq
    · cases h
      rw [beq_iff_eq.2 heq] at hread
      exact ⟨cell, List.mem_cons_self, rfl, hvalue c hread⟩
    · rw [beq_false_of_ne heq] at hread
      obtain ⟨cell', hmem, hsymbol, hslot⟩ := ih h hread
      exact ⟨cell', List.mem_cons_of_mem _ hmem, hsymbol, hslot⟩

theorem find?_function (h : (frame.scope base).find? name = some (.function symbol)) :
    base.find? name = some (.function symbol) := by
  induction frame with
  | nil => exact h
  | cons cell frame ih =>
    rw [find?_scope_cons] at h
    split at h
    · cases h
    · exact ih h

end Cells

end Flow

open Cinder.Flow

/-! ## Expressions -/

/-- Calls of functions outside do what the program says. -/
def Flow.Calls.Serves (calls : Calls) (results : Results) (base : Scope) : Prop :=
  ∀ name symbol arguments value, base.find? name = some (.function symbol) →
    results name arguments = some value → ∃ events, calls symbol arguments events value

/-- What the code of an expression relies on: names outside stand for functions, and
every variable in sight has its slot. -/
structure Flow.Setting (calls : Calls) (results : Results) (base : Scope) (frame : Cells)
    (slots : Slots) : Prop where
  outside : ∀ name symbol, base.find? name ≠ some (.var symbol)
  serves : calls.Serves results base
  slots : ∀ cell ∈ frame, slots.lookup cell.symbol = some cell.slot

/-- The code of an expression has left its value in an operand. -/
structure Flow.Code.Yields (code : Code) (calls : Calls) (f : Function) (supply : Supply)
    (env env' : Env) (c : Constant) : Prop where
  computes : Computes calls f code.instructions supply.symbols.size env env'
  value : code.value.value env' = c
  known : ∀ v, code.value = .var v → v.symbol < code.supply.symbols.size

namespace Flow.Code

variable {calls : Calls} {f : Function} {supply supply' : Supply} {l : List Instruction}
  {ty : Ty} {env env' : Env} {c : Constant}

section

variable (h : Computes calls f l supply.symbols.size env env')
  (hle : supply.symbols.size ≤ supply'.symbols.size)
  (hfit : (supply'.temporary ty).2.symbols.size ≤ UInt32.size)

include h hle hfit

theorem yields_snoc {i : Instruction}
    (hi : i.effect env' = some (env'.set (supply'.temporary ty).1 c)) :
    Yields ⟨l ++ [i], .var (supply'.temporary ty).1, (supply'.temporary ty).2⟩ calls f supply env
      (env'.set (supply'.temporary ty).1 c) c := by
  rw [Supply.size_temporary] at hfit
  have hsymbol := Supply.temporary_symbol hfit ty
  refine ⟨h.snoc hi (hsymbol ▸ hle), Env.set_self .., ?_⟩
  rintro v ⟨⟩
  rw [hsymbol, Supply.size_temporary]
  exact Nat.lt_succ_self _

theorem yields_snoc_call {callee : SymbolId} {arguments : List Operand}
    (hcall : calls callee (arguments.map (Operand.value env')) events (some c)) :
    Yields ⟨l ++ [Instruction.call (some (supply'.temporary ty).1) callee arguments],
      .var (supply'.temporary ty).1, (supply'.temporary ty).2⟩ calls f supply env
      (env'.set (supply'.temporary ty).1 c) c := by
  rw [Supply.size_temporary] at hfit
  have hsymbol := Supply.temporary_symbol hfit ty
  refine ⟨h.snoc_call hcall ?_, Env.set_self .., ?_⟩
  · rintro v ⟨⟩
    rwa [hsymbol]
  rintro v ⟨⟩
  rw [hsymbol, Supply.size_temporary]
  exact Nat.lt_succ_self _

end

theorem Yields.value_of_frame {code : Code} {env'' : Env}
    (h : code.Yields calls f supply env env' c)
    (hframe : ∀ v : Variable, v.symbol < code.supply.symbols.size → env'' v = env' v) :
    code.value.value env'' = c := by
  rw [← h.value]
  cases hvalue : code.value with
  | constant => rfl
  | var v => exact hframe v (h.known v hvalue)

end Flow.Code

namespace Expr

theorem valueType_eq_ok {expr : Expr.Typed} {ty : Ty} :
    expr.valueType = .ok ty ↔ expr.ty = some ty := by
  unfold valueType
  cases expr.ty <;> simp

variable {calls : Calls} {f : Function} {results : Results} {base : Scope} {frame : Cells}
  {slots : Slots} {locals : Locals} {table : SymbolTable}

mutual

theorem yields_of_lower (hset : Setting calls results base frame slots) :
    ∀ {expr : Expr.Typed} {ty : Ty} {supply : Supply} {code : Code} {env : Env}
      {c : Constant}, expr.Bound (frame.scope base) →
      expr.HasType table ty → Cells.Holds env frame locals →
      (∀ cell ∈ frame, cell.slot.symbol < supply.symbols.size) →
      expr.lower slots supply = .ok code → code.supply.symbols.size ≤ UInt32.size →
      expr.eval results locals = some c → ∃ env', code.Yields calls f supply env env' c
  | .literal .., ty, supply, _, env, c, _, htype, _, _, hlower, _, heval => by
    rw [lower] at hlower
    obtain ⟨ty', hty, hlower⟩ := bind_eq_ok.1 hlower
    obtain ⟨c', hc, hlower⟩ := bind_eq_ok.1 hlower
    cases hlower
    cases (valueType_eq_ok.1 hty).symm.trans htype.1
    rw [eval, htype.1, Option.bind_eq_bind, Option.bind_some, hc] at heval
    cases heval
    exact ⟨env, .nil .., rfl, nofun⟩
  | .ident .., ty, supply, _, env, c, hbound, _, hheld, hknown, hlower, hfit, heval => by
    rw [lower] at hlower
    obtain ⟨ty', -, hlower⟩ := bind_eq_ok.1 hlower
    obtain ⟨slot, hslot, hlower⟩ := bind_eq_ok.1 hlower
    cases hlower
    rw [eval] at heval
    obtain ⟨cell, hmem, rfl, rfl⟩ := hheld.read hset.outside hbound heval
    rw [Slots.find, hset.slots cell hmem] at hslot
    cases hslot
    exact ⟨_, Code.yields_snoc (Computes.nil ..) (Nat.le_refl _) hfit rfl⟩
  | .call .., ty, supply, _, env, c, hbound, htype, hheld, hknown, hlower, hfit, heval => by
    rw [lower] at hlower
    obtain ⟨ty', -, hlower⟩ := bind_eq_ok.1 hlower
    obtain ⟨⟨instructions, values, supply'⟩, harguments, hlower⟩ := bind_eq_ok.1 hlower
    obtain ⟨returnType, -, hlower⟩ := bind_eq_ok.1 hlower
    rw [eval] at heval
    obtain ⟨cs, hcs, heval⟩ := Option.bind_eq_some_iff.1 heval
    obtain ⟨result, hresult, rfl⟩ := Option.bind_eq_some_iff.1 heval
    obtain ⟨-, parameters, -, htypes⟩ := htype
    cases returnType with
    | none => cases hlower
    | some returnType =>
      cases hlower
      have hkeeps := supply'.keeps_temporary returnType
      obtain ⟨env', hcomputes, hvalues, -⟩ := yieldAll_of_lowerAll hset hbound.2 htypes hheld hknown
        harguments (Nat.le_trans hkeeps.size_le hfit) hcs
      obtain ⟨events, hcall⟩ := hset.serves _ _ _ _ (Cells.find?_function hbound.1) hresult
      rw [← hvalues] at hcall
      exact ⟨_, Code.yields_snoc_call hcomputes
        (straight_of_lowerAll none harguments).1.keeps.size_le hfit hcall⟩
  | .binary .., ty, supply, _, env, c, hbound, htype, hheld, hknown, hlower, hfit, heval => by
    rw [lower] at hlower
    obtain ⟨ty', -, hlower⟩ := bind_eq_ok.1 hlower
    obtain ⟨operandTy, -, hlower⟩ := bind_eq_ok.1 hlower
    obtain ⟨lhs, hlhs, hlower⟩ := bind_eq_ok.1 hlower
    obtain ⟨rhs, hrhs, hlower⟩ := bind_eq_ok.1 hlower
    cases hlower
    rw [eval] at heval
    obtain ⟨a, ha, heval⟩ := Option.bind_eq_some_iff.1 heval
    obtain ⟨b, hb, heval⟩ := Option.bind_eq_some_iff.1 heval
    obtain ⟨-, operandTy', htl, htr, -⟩ := htype
    have hkeepsl := keeps_of_lower hlhs
    have hkeepsr := keeps_of_lower hrhs
    have hfitr := Nat.le_trans (rhs.supply.keeps_temporary ty').size_le hfit
    obtain ⟨env₁, hl⟩ := yields_of_lower hset hbound.1 htl hheld hknown hlhs
      (Nat.le_trans hkeepsr.size_le hfitr) ha
    obtain ⟨env₂, hr⟩ := yields_of_lower hset hbound.2 htr (hheld.computes hl.computes hknown)
      (fun cell hmem => Nat.lt_of_lt_of_le (hknown cell hmem) hkeepsl.size_le) hrhs hfitr hb
    refine ⟨_, Code.yields_snoc (hl.computes.append hr.computes hkeepsl.size_le)
      (hkeepsl.trans hkeepsr).size_le hfit ?_⟩
    rw [Instruction.effect, hl.value_of_frame hr.computes.frame, hr.value, heval]
    rfl
  | .negate _ _ e, ty, supply, _, env, c, hbound, htype, hheld, hknown, hlower, hfit, heval => by
    rw [lower] at hlower
    obtain ⟨ty', hty, hlower⟩ := bind_eq_ok.1 hlower
    obtain ⟨zero, hzero, hlower⟩ := bind_eq_ok.1 hlower
    obtain ⟨operand, hoperand, hlower⟩ := bind_eq_ok.1 hlower
    cases hlower
    cases (valueType_eq_ok.1 hty).symm.trans htype.1
    rw [eval, htype.1, Option.bind_eq_bind, Option.bind_some, hzero] at heval
    obtain ⟨_, hsome, heval⟩ := Option.bind_eq_some_iff.1 heval
    cases hsome
    obtain ⟨a, ha, heval⟩ := Option.bind_eq_some_iff.1 heval
    have hkeeps := operand.supply.keeps_temporary ty
    have hbound : e.Bound (frame.scope base) := hbound
    obtain ⟨env₁, ho⟩ := yields_of_lower hset hbound htype.2.1 hheld hknown hoperand
      (Nat.le_trans hkeeps.size_le hfit) ha
    refine ⟨_, Code.yields_snoc ho.computes (keeps_of_lower hoperand).size_le hfit ?_⟩
    rw [Instruction.effect, ho.value, Operand.value, heval]
    rfl
  | .cast _ _ e _, ty, supply, _, env, c, hbound, htype, hheld, hknown, hlower, hfit, heval => by
    rw [lower] at hlower
    obtain ⟨ty', hty, hlower⟩ := bind_eq_ok.1 hlower
    obtain ⟨sourceTy, -, hlower⟩ := bind_eq_ok.1 hlower
    obtain ⟨operand, hoperand, hlower⟩ := bind_eq_ok.1 hlower
    cases hlower
    obtain ⟨hlabel, htarget, source, htyped, -⟩ := htype
    cases (valueType_eq_ok.1 hty).symm.trans hlabel
    rw [eval, htarget] at heval
    obtain ⟨a, ha, heval⟩ := Option.bind_eq_some_iff.1 heval
    cases heval
    have hkeeps := operand.supply.keeps_temporary ty
    have hbound : e.Bound (frame.scope base) := hbound
    obtain ⟨env₁, ho⟩ := yields_of_lower hset hbound htyped hheld hknown hoperand
      (Nat.le_trans hkeeps.size_le hfit) ha
    refine ⟨_, Code.yields_snoc ho.computes (keeps_of_lower hoperand).size_le hfit ?_⟩
    rw [Instruction.effect, ho.value]
    rfl

/-- The code of arguments computes their values from left to right. -/
theorem yieldAll_of_lowerAll (hset : Setting calls results base frame slots) :
    ∀ {exprs : List Expr.Typed} {parameters : List SymbolId} {supply : Supply}
      {result} {env : Env} {cs : List Constant},
      BoundAll (frame.scope base) exprs → HaveTypes table exprs parameters →
      Cells.Holds env frame locals →
      (∀ cell ∈ frame, cell.slot.symbol < supply.symbols.size) →
      lowerAll slots supply exprs = .ok result → result.2.2.symbols.size ≤ UInt32.size →
      evalAll results locals exprs = some cs →
        ∃ env', Computes calls f result.1 supply.symbols.size env env' ∧
          result.2.1.map (Operand.value env') = cs ∧
          ∀ v, Operand.var v ∈ result.2.1 → v.symbol < result.2.2.symbols.size
  | [], _, supply, _, env, cs, _, _, _, _, hlower, _, heval => by
    cases hlower
    cases heval
    exact ⟨env, .nil .., rfl, nofun⟩
  | expr :: rest, [], _, _, _, _, _, htypes, _, _, _, _, _ => htypes.elim
  | expr :: rest, p :: parameters, supply, _, env, cs, hbound, htypes, hheld, hknown, hlower, hfit,
      heval => by
      rw [lowerAll] at hlower
      obtain ⟨code, hcode, hlower⟩ := bind_eq_ok.1 hlower
      obtain ⟨⟨instructions, values, supply'⟩, hrest, hlower⟩ := bind_eq_ok.1 hlower
      cases hlower
      rw [evalAll] at heval
      obtain ⟨c, hc, heval⟩ := Option.bind_eq_some_iff.1 heval
      obtain ⟨cs', hcs, heval⟩ := Option.bind_eq_some_iff.1 heval
      cases heval
      obtain ⟨⟨ty, -, htype⟩, htypes⟩ := htypes
      have hkeeps := keeps_of_lower hcode
      have hkeeps' := (straight_of_lowerAll none hrest).1.keeps
      obtain ⟨env₁, hfirst⟩ := yields_of_lower hset hbound.1 htype hheld hknown hcode
        (Nat.le_trans hkeeps'.size_le hfit) hc
      obtain ⟨env₂, hcomputes, hvalues, hvars⟩ := yieldAll_of_lowerAll hset hbound.2 htypes
        (hheld.computes hfirst.computes hknown)
        (fun cell hmem => Nat.lt_of_lt_of_le (hknown cell hmem) hkeeps.size_le) hrest hfit hcs
      refine ⟨env₂, hfirst.computes.append hcomputes hkeeps.size_le, ?_, ?_⟩
      · rw [List.map_cons, hfirst.value_of_frame hcomputes.frame, hvalues]
      · intro v hv
        rcases List.mem_cons.1 hv with hv | hv
        · exact Nat.lt_of_lt_of_le (hfirst.known v hv.symm) hkeeps'.size_le
        · exact hvars v hv

end

theorem computes_of_lowerEffect (hset : Setting calls results base frame slots)
    {expr : Expr.Typed} {supply : Supply} {result : List Instruction × Supply}
    {env : Env} (hbound : expr.Bound (frame.scope base)) (htype : expr.WellTyped table)
    (hheld : Cells.Holds env frame locals)
    (hknown : ∀ cell ∈ frame, cell.slot.symbol < supply.symbols.size)
    (hlower : expr.lowerEffect slots supply = .ok result)
    (hfit : result.2.symbols.size ≤ UInt32.size)
    (heval : expr.evalEffect results locals = some ()) :
    ∃ env', Computes calls f result.1 supply.symbols.size env env' := by
  cases expr with
  | call span ty callee symbol arguments =>
    obtain ⟨parameters, htypes⟩ : ∃ parameters, HaveTypes table arguments parameters := by
      rcases htype with ⟨ty, -, parameters, -, h⟩ | ⟨_, _, _, _, parameters, heq, -, h⟩
      · exact ⟨parameters, h⟩
      · cases heq
        exact ⟨parameters, h⟩
    obtain ⟨⟨instructions, values, supply'⟩, harguments, hlower⟩ := bind_eq_ok.1 hlower
    obtain ⟨returnType, -, hlower⟩ := bind_eq_ok.1 hlower
    obtain ⟨cs, hcs, heval⟩ := Option.bind_eq_some_iff.1 heval
    obtain ⟨value, hvalue, -⟩ := Option.bind_eq_some_iff.1 heval
    obtain ⟨events, hcall⟩ := hset.serves _ _ _ _ (Cells.find?_function hbound.1) hvalue
    have hle := (straight_of_lowerAll none harguments).1.keeps.size_le
    cases returnType with
    | none =>
      cases hlower
      obtain ⟨env', hcomputes, hvalues, -⟩ := yieldAll_of_lowerAll hset hbound.2 htypes hheld
        hknown harguments hfit hcs
      rw [← hvalues] at hcall
      exact ⟨_, hcomputes.snoc_call hcall nofun⟩
    | some returnType =>
      cases hlower
      have hfit : (supply'.temporary returnType).2.symbols.size ≤ UInt32.size := hfit
      rw [Supply.size_temporary] at hfit
      have hsymbol := Supply.temporary_symbol hfit returnType
      obtain ⟨env', hcomputes, hvalues, -⟩ := yieldAll_of_lowerAll hset hbound.2 htypes hheld
        hknown harguments (Nat.le_of_lt hfit) hcs
      rw [← hvalues] at hcall
      refine ⟨_, hcomputes.snoc_call hcall ?_⟩
      rintro v ⟨⟩
      exact le_of_le_of_eq hle hsymbol.symm
  | literal | ident | binary | negate | cast =>
    obtain ⟨ty, htype⟩ := htype.resolve_right (by rintro ⟨_, _, _, _, _, ⟨⟩, _⟩)
    obtain ⟨code, hcode, hlower⟩ := bind_eq_ok.1 hlower
    obtain ⟨c, hc, -⟩ := Option.bind_eq_some_iff.1 heval
    cases hlower
    obtain ⟨env', hyields⟩ := yields_of_lower hset hbound htype hheld hknown hcode hfit hc
    exact ⟨env', hyields.computes⟩

end Expr

end Cinder
