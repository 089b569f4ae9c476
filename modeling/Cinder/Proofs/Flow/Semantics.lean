import Cinder.Flow.Graph

/-!
# Running flow graphs

An activation of a function runs from the entry block over an environment that
gives every variable a constant.  What a call does is a parameter of the steps of
one activation; a module closes that loop by counting how deep calls are nested.
-/

namespace Cinder.Flow

abbrev Env := Variable → Constant

namespace Env

def set (env : Env) (v : Variable) (c : Constant) : Env :=
  fun u => if u = v then c else env u

def bind (env : Env) : List Variable → List Constant → Env
  | v :: vs, c :: cs => (env.set v c).bind vs cs
  | _, _ => env

def receive (env : Env) (result : Option Variable) (value : Option Constant) : Env :=
  match result, value with
  | some v, some c => env.set v c
  | _, _ => env

@[simp] theorem set_self (env : Env) (v : Variable) (c : Constant) : env.set v c v = c := by
  simp [set]

theorem set_of_ne (env : Env) {u v : Variable} (c : Constant) (h : u ≠ v) :
    env.set v c u = env u := by
  simp [set, h]

end Env

def Operand.value (env : Env) : Operand → Constant
  | .constant c => c
  | .var v => env v

/-- What an instruction without jump or call does to the environment.  There is
nothing it does if its operation has no value. -/
def Instruction.effect (env : Env) : Instruction → Option Env
  | .label _ => some env
  | .alloca _ _ => some env
  | .binary result lhs op rhs _ _ =>
    (Constant.binary op (lhs.value env) (rhs.value env)).map (env.set result)
  | .cast result source _ targetTy => some (env.set result ((source.value env).cast targetTy))
  | .store destination value _ => some (env.set destination (value.value env))
  | .load result source _ => some (env.set result (env source))
  | _ => none

structure Event where
  callee : SymbolId
  arguments : List Constant
deriving DecidableEq, Repr

/-- What calls can do: the calls made on the way, and what is returned. -/
abbrev Calls := SymbolId → List Constant → List Event → Option Constant → Prop

/-- A point of an activation: the block, what is left of it, and the variables. -/
structure State where
  block : BlockId
  rest : List Instruction
  env : Env

def Function.enter (f : Function) (id : BlockId) (env : Env) : Option State :=
  (f.block? id).map fun block => ⟨id, block.instructions, env⟩

/-- One step of an activation, with the calls it makes. -/
inductive Step (calls : Calls) (f : Function) : State → List Event → State → Prop where
  | plain {id i rest env env'} (h : Instruction.effect env i = some env') :
    Step calls f ⟨id, i :: rest, env⟩ [] ⟨id, rest, env'⟩
  | goto {id target rest env s} (h : f.enter target env = some s) :
    Step calls f ⟨id, .goto target :: rest, env⟩ [] s
  | taken {id condition target rest env s} (hc : (Operand.value env condition).isZero = false)
    (h : f.enter target env = some s) :
    Step calls f ⟨id, .branch condition target :: rest, env⟩ [] s
  | passed {id condition target rest env} (hc : (Operand.value env condition).isZero = true) :
    Step calls f ⟨id, .branch condition target :: rest, env⟩ [] ⟨id, rest, env⟩
  | call {id result callee arguments rest env events value}
    (h : calls callee (arguments.map (Operand.value env)) events value) :
    Step calls f ⟨id, .call result callee arguments :: rest, env⟩
      (⟨callee, arguments.map (Operand.value env)⟩ :: events)
      ⟨id, rest, env.receive result value⟩
  | fall {id block next env s} (hb : f.block? id = some block) (hn : block.next = some next)
    (h : f.enter next env = some s) :
    Step calls f ⟨id, [], env⟩ [] s

inductive Steps (calls : Calls) (f : Function) : State → List Event → State → Prop where
  | refl {s} : Steps calls f s [] s
  | head {s t u es es'} (h : Step calls f s es t) (hs : Steps calls f t es' u) :
    Steps calls f s (es ++ es') u

namespace Steps

variable {calls : Calls} {f : Function} {s t u : State} {es es' : List Event}

theorem single (h : Step calls f s es t) : Steps calls f s es t := by
  have hs := Steps.head h Steps.refl
  rwa [List.append_nil] at hs

theorem trans (h : Steps calls f s es t) (h' : Steps calls f t es' u) :
    Steps calls f s (es ++ es') u := by
  induction h with
  | refl => exact h'
  | head hstep _ ih =>
    rw [List.append_assoc]
    exact .head hstep (ih h')

end Steps

def State.Returns (s : State) (value : Option Constant) : Prop :=
  ∃ result rest, s.rest = .ret result :: rest ∧
    value = result.map fun (operand, _) => operand.value s.env

namespace Function

def start (f : Function) (init : Env) (arguments : List Constant) : Option State :=
  f.enter f.entry (init.bind f.parameters arguments)

def Reaches (calls : Calls) (f : Function) (init : Env) (arguments : List Constant)
    (events : List Event) (s : State) : Prop :=
  ∃ s₀, f.start init arguments = some s₀ ∧ Steps calls f s₀ events s

def Returns (calls : Calls) (f : Function) (init : Env) (arguments : List Constant)
    (events : List Event) (value : Option Constant) : Prop :=
  ∃ s, f.Reaches calls init arguments events s ∧ s.Returns value

end Function

namespace Module

def function? (m : Module) (symbol : SymbolId) : Option Function :=
  m.functions.find? fun f => f.symbol = symbol

/-- What calls can do if they are nested at most so deep.  Variables that have
not been written hold what `init` says. -/
def RunsWithin (m : Module) (init : Env) : Nat → Calls
  | 0 => fun _ _ _ _ => False
  | depth + 1 => fun callee arguments events value =>
    ∃ f, m.function? callee = some f ∧
      f.Returns (m.RunsWithin init depth) init arguments events value

def Runs (m : Module) (init : Env) : Calls :=
  fun callee arguments events value =>
    ∃ depth, m.RunsWithin init depth callee arguments events value

end Module

/-! ## More calls, more runs -/

def Calls.le (calls calls' : Calls) : Prop :=
  ∀ callee arguments events value,
    calls callee arguments events value → calls' callee arguments events value

section

variable {calls calls' : Calls} {f : Function} {s t : State} {es : List Event}

section

variable (hle : Calls.le calls calls')

include hle

theorem Step.mono (h : Step calls f s es t) : Step calls' f s es t := by
  cases h with
  | plain h => exact .plain h
  | goto h => exact .goto h
  | taken hc h => exact .taken hc h
  | passed hc => exact .passed hc
  | call h => exact .call (hle _ _ _ _ h)
  | fall hb hn h => exact .fall hb hn h

theorem Steps.mono (h : Steps calls f s es t) : Steps calls' f s es t := by
  induction h with
  | refl => exact .refl
  | head hstep _ ih => exact .head (hstep.mono hle) ih

theorem Function.Reaches.mono {init : Env} {arguments : List Constant}
    (h : f.Reaches calls init arguments es s) :
    f.Reaches calls' init arguments es s := by
  obtain ⟨s₀, hstart, hsteps⟩ := h
  exact ⟨s₀, hstart, hsteps.mono hle⟩

theorem Function.Returns.mono {init : Env} {arguments : List Constant} {value : Option Constant}
    (h : f.Returns calls init arguments es value) :
    f.Returns calls' init arguments es value := by
  obtain ⟨s, hreach, hret⟩ := h
  exact ⟨s, hreach.mono hle, hret⟩

end

end

theorem Module.runsWithin_succ (m : Module) (init : Env) (depth : Nat) :
    Calls.le (m.RunsWithin init depth) (m.RunsWithin init (depth + 1)) := by
  induction depth with
  | zero =>
    intro callee arguments events value h
    exact h.elim
  | succ depth ih =>
    intro callee arguments events value h
    obtain ⟨f, hf, hret⟩ := h
    exact ⟨f, hf, hret.mono ih⟩

theorem Module.runsWithin_mono (m : Module) (init : Env) {depth depth' : Nat}
    (h : depth ≤ depth') : Calls.le (m.RunsWithin init depth) (m.RunsWithin init depth') := by
  induction h with
  | refl => exact fun _ _ _ _ h => h
  | step _ ih => exact fun _ _ _ _ h => m.runsWithin_succ init _ _ _ _ _ (ih _ _ _ _ h)

/-! ## At most one run -/

def Calls.Functional (calls : Calls) : Prop :=
  ∀ callee arguments events events' value value', calls callee arguments events value →
    calls callee arguments events' value' → events = events' ∧ value = value'

section

variable {calls : Calls} {f : Function} {s t t' : State} {es es' : List Event}

theorem Step.unique (hcalls : calls.Functional) (h : Step calls f s es t)
    (h' : Step calls f s es' t') : es = es' ∧ t = t' := by
  cases h with
  | plain h =>
    cases h' with
    | plain h' =>
      cases h.symm.trans h'
      exact ⟨rfl, rfl⟩
    | goto | taken | passed | call => cases h
  | goto h =>
    cases h' with
    | plain h' => cases h'
    | goto h' =>
      cases h.symm.trans h'
      exact ⟨rfl, rfl⟩
  | taken hc h =>
    cases h' with
    | plain h' => cases h'
    | taken hc' h' =>
      cases h.symm.trans h'
      exact ⟨rfl, rfl⟩
    | passed hc' => cases hc.symm.trans hc'
  | passed hc =>
    cases h' with
    | plain h' => cases h'
    | taken hc' h' => cases hc.symm.trans hc'
    | passed hc' => exact ⟨rfl, rfl⟩
  | call h =>
    cases h' with
    | plain h' => cases h'
    | call h' =>
      obtain ⟨rfl, rfl⟩ := hcalls _ _ _ _ _ _ h h'
      exact ⟨rfl, rfl⟩
  | fall hb hn h =>
    cases h' with
    | fall hb' hn' h' =>
      cases hb.symm.trans hb'
      cases hn.symm.trans hn'
      cases h.symm.trans h'
      exact ⟨rfl, rfl⟩

theorem State.Returns.not_step {value : Option Constant} (h : s.Returns value) :
    ¬ Step calls f s es t := by
  obtain ⟨result, rest, hrest, -⟩ := h
  intro hstep
  cases hstep <;> cases hrest
  rename_i h
  cases h

theorem State.Returns.unique {value value' : Option Constant} (h : s.Returns value)
    (h' : s.Returns value') : value = value' := by
  obtain ⟨result, rest, hrest, rfl⟩ := h
  obtain ⟨result', rest', hrest', rfl⟩ := h'
  cases hrest.symm.trans hrest'
  rfl

theorem Steps.unique {value value' : Option Constant} (hcalls : calls.Functional)
    (h : Steps calls f s es t) (hend : t.Returns value) (h' : Steps calls f s es' t')
    (hend' : t'.Returns value') : es = es' ∧ t = t' := by
  induction h generalizing es' with
  | refl =>
    cases h' with
    | refl => exact ⟨rfl, rfl⟩
    | head hstep _ => exact absurd hstep hend.not_step
  | head hstep _ ih =>
    cases h' with
    | refl => exact absurd hstep hend'.not_step
    | head hstep' hsteps' =>
      obtain ⟨rfl, rfl⟩ := hstep.unique hcalls hstep'
      obtain ⟨rfl, rfl⟩ := ih hend hsteps'
      exact ⟨rfl, rfl⟩

theorem Function.Returns.unique {init : Env} {arguments : List Constant}
    {value value' : Option Constant} (hcalls : calls.Functional)
    (h : f.Returns calls init arguments es value) (h' : f.Returns calls init arguments es' value') :
    es = es' ∧ value = value' := by
  obtain ⟨s, ⟨s₀, hstart, hsteps⟩, hend⟩ := h
  obtain ⟨s', ⟨s₀', hstart', hsteps'⟩, hend'⟩ := h'
  cases hstart.symm.trans hstart'
  obtain ⟨rfl, rfl⟩ := hsteps.unique hcalls hend hsteps' hend'
  exact ⟨rfl, hend.unique hend'⟩

end

theorem Module.functional_runsWithin (m : Module) (init : Env) (depth : Nat) :
    (m.RunsWithin init depth).Functional := by
  induction depth with
  | zero =>
    intro callee arguments events events' value value' h
    exact h.elim
  | succ depth ih =>
    intro callee arguments events events' value value' h h'
    obtain ⟨f, hf, hreturns⟩ := h
    obtain ⟨f', hf', hreturns'⟩ := h'
    cases hf.symm.trans hf'
    exact hreturns.unique ih hreturns'

theorem Module.functional_runs (m : Module) (init : Env) : (m.Runs init).Functional := by
  intro callee arguments events events' value value' h h'
  obtain ⟨depth, h⟩ := h
  obtain ⟨depth', h'⟩ := h'
  exact m.functional_runsWithin init (max depth depth') _ _ _ _ _ _
    (m.runsWithin_mono init (Nat.le_max_left ..) _ _ _ _ h)
    (m.runsWithin_mono init (Nat.le_max_right ..) _ _ _ _ h')

end Cinder.Flow
