import Cinder.Flow.Graph

/-!
# Dataflow analyses

An analysis computes a state for every point of a function.  States flow along
the links of the graph, forward or backward, are merged where paths meet, and are
changed by every instruction.  The solver revises blocks from a worklist until
no state changes.
-/

namespace Cinder.Flow

inductive Direction where
  | forward
  | backward
deriving DecidableEq, Repr

structure Analysis (σ : Type) where
  direction : Direction
  /-- The state where no path has arrived. -/
  bottom : σ
  /-- The state where the walk starts: before the entry, or after the exit. -/
  boundary : σ
  merge : σ → σ → σ
  /-- The effect of an instruction, in the direction of the analysis. -/
  transfer : Instruction → σ → σ
  /-- How often a state can grow. -/
  height : Nat

structure BlockStates (σ : Type) where
  inputs : Arena σ
  outputs : Arena σ

structure Point (σ : Type) where
  before : σ
  after : σ

structure Routes where
  start : BlockId
  /-- The blocks whose states flow into a block. -/
  sources : BlockId → List BlockId
  /-- The blocks that the state of a block flows into. -/
  dependents : BlockId → List BlockId

structure Solution (σ : Type) where
  entering : Arena σ
  leaving : Arena σ

def enqueue (worklist blocks : List BlockId) : List BlockId :=
  blocks.foldl (fun worklist id => if id ∈ worklist then worklist else worklist ++ [id]) worklist

namespace Analysis

variable {σ : Type} [DecidableEq σ] (a : Analysis σ)

def transferAll (instructions : List Instruction) (state : σ) : σ :=
  match a.direction with
  | .forward => instructions.foldl (fun state i => a.transfer i state) state
  | .backward => instructions.foldr a.transfer state

def stateAt (states : Arena σ) (id : BlockId) : σ :=
  (states.get? id).getD a.bottom

def routes (f : Function) (predecessors : Arena (List BlockId)) : Routes :=
  let before (id : BlockId) := (predecessors.get? id).getD []
  match a.direction with
  | .forward => ⟨f.entry, before, f.successorsOf⟩
  | .backward => ⟨f.exit, f.successorsOf, before⟩

def enteringState (routes : Routes) (leaving : Arena σ) (id : BlockId) : σ :=
  (routes.sources id).foldl (fun state source => a.merge state (a.stateAt leaving source))
    (if id = routes.start then a.boundary else a.bottom)

/-- Revises the blocks of a worklist.  A block whose state changes puts the blocks
it flows into back on the worklist. -/
def iterate (f : Function) (routes : Routes) :
    Nat → List BlockId → Solution σ → Except Fault (Solution σ)
  | _, [], solution => .ok solution
  | 0, _ :: _, _ => .error .endless
  | fuel + 1, id :: worklist, solution =>
    let entering := a.enteringState routes solution.leaving id
    let leaving := a.transferAll (f.instructionsOf id) entering
    let solution := { solution with entering := solution.entering.set id entering }
    if leaving = a.stateAt solution.leaving id then iterate f routes fuel worklist solution
    else if (routes.dependents id).all f.contains then
      iterate f routes fuel (enqueue worklist (routes.dependents id))
        { solution with leaving := solution.leaving.set id leaving }
    else .error .outOfRange

/-- A number of revisions that is never reached: every block is revised once, and
again after each growth of a block that flows into it. -/
def revisions (f : Function) : Nat :=
  let blocks := f.blocks.size
  blocks + blocks * a.height * (blocks + 2)

def solve (f : Function) : Except Fault (BlockStates σ) := do
  let order ← f.order
  let routes := a.routes f (← f.predecessors)
  let initial := f.blocks.map fun _ => a.bottom
  match a.direction with
  | .forward =>
    let solution ← a.iterate f routes (a.revisions f) order ⟨initial, initial⟩
    return ⟨solution.entering, solution.leaving⟩
  | .backward =>
    let solution ← a.iterate f routes (a.revisions f) order.reverse ⟨initial, initial⟩
    return ⟨solution.leaving, solution.entering⟩

/-- The states around every instruction of a list that is entered in a state. -/
def pointsForward : σ → List Instruction → List (Point σ)
  | _, [] => []
  | state, i :: rest =>
    let after := a.transfer i state
    ⟨state, after⟩ :: pointsForward after rest

def pointsBackward (state : σ) : List Instruction → List (Point σ)
  | [] => []
  | i :: rest =>
    let points := pointsBackward state rest
    let after := points.head?.elim state Point.before
    ⟨a.transfer i after, after⟩ :: points

def pointsOf (f : Function) (states : BlockStates σ) (id : BlockId) : List (Point σ) :=
  match a.direction with
  | .forward => a.pointsForward (a.stateAt states.inputs id) (f.instructionsOf id)
  | .backward => a.pointsBackward (a.stateAt states.outputs id) (f.instructionsOf id)

def points (f : Function) (states : BlockStates σ) : Except Fault (Arena (List (Point σ))) := do
  let order ← f.order
  return .ofList (f.blocks.handles.map fun id =>
    if id ∈ order then a.pointsOf f states id else [])

end Analysis

end Cinder.Flow
