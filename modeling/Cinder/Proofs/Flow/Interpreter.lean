import Cinder.Proofs.Flow.Semantics

/-!
# An interpreter for flow graphs

Runs functions with bounds on the number of steps and on the depth of calls.
Whatever it finds is a run.
-/

namespace Cinder.Flow

abbrev CallResults := SymbolId → List Constant → Option (List Event × Option Constant)

def State.step? (call : CallResults) (f : Function) (s : State) : Option (List Event × State) :=
  match s.rest with
  | [] => do
    let next ← (← f.block? s.block).next
    return ([], ← f.enter next s.env)
  | .goto target :: _ => return ([], ← f.enter target s.env)
  | .branch condition target :: rest =>
    if (condition.value s.env).isZero then some ([], { s with rest })
    else return ([], ← f.enter target s.env)
  | .call result callee arguments :: rest => do
    let values := arguments.map (Operand.value s.env)
    let (events, value) ← call callee values
    return (⟨callee, values⟩ :: events, ⟨s.block, rest, s.env.receive result value⟩)
  | i :: rest => return ([], ⟨s.block, rest, ← i.effect s.env⟩)

def State.run? (call : CallResults) (f : Function) :
    Nat → State → Option (List Event × Option Constant)
  | 0, _ => none
  | steps + 1, s =>
    match s.rest with
    | .ret result :: _ => some ([], result.map fun (operand, _) => operand.value s.env)
    | _ => do
      let (events, t) ← s.step? call f
      let (events', value) ← t.run? call f steps
      return (events ++ events', value)

def Module.run? (m : Module) (init : Env) (steps : Nat) : Nat → CallResults
  | 0, _, _ => none
  | depth + 1, callee, arguments => do
    let f ← m.function? callee
    let s ← f.start init arguments
    s.run? (m.run? init steps depth) f steps

section

variable {call : CallResults} {calls : Calls} {f : Function}

theorem State.step_of_step? {s t : State} {events : List Event}
    (hcall : ∀ callee arguments r, call callee arguments = some r →
      calls callee arguments r.1 r.2)
    (h : s.step? call f = some (events, t)) : Step calls f s events t := by
  obtain ⟨id, rest, env⟩ := s
  unfold step? at h
  split at h <;> rename_i hrest <;> cases hrest
  · obtain ⟨block, hb, h⟩ := Option.bind_eq_some_iff.1 h
    obtain ⟨next, hn, h⟩ := Option.bind_eq_some_iff.1 h
    obtain ⟨u, hu, h⟩ := Option.bind_eq_some_iff.1 h
    cases h
    exact .fall hb hn hu
  · obtain ⟨u, hu, h⟩ := Option.bind_eq_some_iff.1 h
    cases h
    exact .goto hu
  · split at h <;> rename_i hzero
    · cases h
      exact .passed hzero
    · obtain ⟨u, hu, h⟩ := Option.bind_eq_some_iff.1 h
      cases h
      exact .taken (Bool.eq_false_iff.2 hzero) hu
  · obtain ⟨r, hr, h⟩ := Option.bind_eq_some_iff.1 h
    cases h
    exact .call (hcall _ _ r hr)
  · obtain ⟨env', heffect, h⟩ := Option.bind_eq_some_iff.1 h
    cases h
    exact .plain heffect

theorem State.steps_of_run? {s : State} {n : Nat} {r : List Event × Option Constant}
    (hcall : ∀ callee arguments r, call callee arguments = some r →
      calls callee arguments r.1 r.2)
    (h : s.run? call f n = some r) : ∃ t, Steps calls f s r.1 t ∧ t.Returns r.2 := by
  induction n generalizing s r with
  | zero => cases h
  | succ n ih =>
    unfold run? at h
    split at h
    · rename_i result rest hrest
      cases h
      exact ⟨s, .refl, result, rest, hrest, rfl⟩
    · obtain ⟨⟨events, t⟩, hstep, h⟩ := Option.bind_eq_some_iff.1 h
      obtain ⟨r', hrun, h⟩ := Option.bind_eq_some_iff.1 h
      cases h
      obtain ⟨u, hsteps, hreturns⟩ := ih hrun
      exact ⟨u, .head (step_of_step? hcall hstep) hsteps, hreturns⟩

end

theorem Module.runsWithin_of_run? {m : Module} {init : Env} {steps depth : Nat}
    {callee : SymbolId} {arguments : List Constant} {r : List Event × Option Constant}
    (h : m.run? init steps depth callee arguments = some r) :
    m.RunsWithin init depth callee arguments r.1 r.2 := by
  induction depth generalizing callee arguments r with
  | zero => cases h
  | succ depth ih =>
    simp only [run?, Option.bind_eq_bind, Option.bind_eq_some_iff] at h
    obtain ⟨f, hf, s, hs, hrun⟩ := h
    obtain ⟨t, hsteps, hreturns⟩ := State.steps_of_run? (fun _ _ _ => ih) hrun
    exact ⟨f, hf, t, ⟨s, hs, hsteps⟩, hreturns⟩

end Cinder.Flow
