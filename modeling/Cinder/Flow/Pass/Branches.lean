import Cinder.Flow.Graph

/-!
# Branch simplification

A conditional jump on a constant is decided.  A link to a block that does nothing
but jump leads on to where that jump goes, so that such blocks drop out of the
function.
-/

namespace Cinder.Flow

/-- Decides the first conditional jump on a constant.  A jump that is taken
becomes unconditional and ends the list; its target is returned as well. -/
def decideBranch : List Instruction → Option (List Instruction × Option BlockId)
  | [] => none
  | .branch (.constant condition) target :: rest =>
    if condition.isZero then some (rest, none) else some ([.goto target], some target)
  | i :: rest => (decideBranch rest).map fun (rest, target) => (i :: rest, target)

namespace Block

def decide? (block : Block) : Option Block :=
  (decideBranch block.instructions).map fun (instructions, target) =>
    { instructions, next := target.or block.next, branch := none }

def redirect (source target : BlockId) (block : Block) : Block :=
  let turn (link : Option BlockId) := if link = some source then some target else link
  ⟨block.instructions.map (Instruction.retarget source target), turn block.next,
    turn block.branch⟩

end Block

namespace Function

/-- Follows blocks that do nothing but jump.  There is no end to follow to if the
jumps run in a circle or through the exit; `fresh` holds the blocks not visited
yet. -/
def follow (f : Function) (fresh : List BlockId) (current : BlockId) :
    Except Fault (Option BlockId) := do
  match (← f.block current).proxyTarget? with
  | none => return some current
  | some target =>
    if current = f.exit then return none
    else if _h : current ∈ fresh then f.follow (fresh.erase current) target
    else return none
termination_by fresh.length
decreasing_by
  have := List.length_erase_of_mem _h
  have := List.length_pos_of_mem _h
  omega

def destination? (f : Function) (start : BlockId) : Except Fault (Option BlockId) := do
  return (← f.follow f.blocks.handles start).filter (· ≠ start)

def threadTo (id : BlockId) (state : Function × Bool) (successor : BlockId) :
    Except Fault (Function × Bool) := do
  let (f, _) := state
  match ← f.destination? successor with
  | none => return state
  | some target => return (f.modifyBlock id (Block.redirect successor target), true)

/-- Redirects every link of a block that leads to a block that only jumps, and
tells whether there was one. -/
def thread (f : Function) (id : BlockId) : Except Fault (Function × Bool) := do
  (← f.block id).successors.foldlM (threadTo id) (f, false)

def simplifyWithin (id : BlockId) : Nat → Function → Bool → Except Fault (Function × Bool)
  | 0, _, _ => throw .endless
  | fuel + 1, f, changed => do
    match (← f.block id).decide? with
    | some block => simplifyWithin id fuel (f.setBlock id block) true
    | none =>
      let (f, threaded) ← f.thread id
      if threaded then simplifyWithin id fuel f true else return (f, changed)

/-- Simplifies a block, and tells whether anything changed.  Deciding a jump
removes it, and links once redirected lead to blocks that do more than jump, so
twice the number of conditional jumps bounds the steps. -/
def simplify (f : Function) (id : BlockId) : Except Fault (Function × Bool) := do
  let branches := (← f.block id).instructions.countP Instruction.isBranch
  simplifyWithin id (2 * branches + 3) f false

end Function

end Cinder.Flow
