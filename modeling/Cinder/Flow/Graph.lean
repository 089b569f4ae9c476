import Cinder.Flow.Instruction

/-!
# Flow graphs

The body of a function is a graph of blocks.  A block runs from its first
instruction to its last and then goes on to its `next` block, or to its `branch`
block if its conditional jump is taken.  Blocks that the entry does not reach are
not part of the function.
-/

namespace Cinder.Flow

structure Block where
  instructions : List Instruction
  next : Option BlockId := none
  branch : Option BlockId := none
deriving DecidableEq, Repr

namespace Block

def labelled (id : BlockId) : Block :=
  ⟨[.label id], none, none⟩

def successors (block : Block) : List BlockId :=
  block.next.toList ++ block.branch.toList

def isTerminated (block : Block) : Bool :=
  block.instructions.getLast?.any Instruction.isTerminator

def proxyTarget? (block : Block) : Option BlockId :=
  match block.instructions with
  | [.label _, .goto target] => some target
  | [.goto target] => some target
  | _ => none

def push (block : Block) (i : Instruction) : Block :=
  { block with instructions := block.instructions ++ [i] }

theorem length_successors_le (block : Block) : block.successors.length ≤ 2 := by
  rcases block with ⟨_, _ | _, _ | _⟩ <;> simp [successors]

end Block

structure Function where
  symbol : SymbolId
  name : String
  parameters : List Variable := []
  returnType : Option Ty
  entry : BlockId
  exit : BlockId
  blocks : Arena Block
deriving DecidableEq, Repr

namespace Function

/-- A function without instructions.  Its first block is the entry and its second
one the exit. -/
def ofSymbol (table : SymbolTable) (symbol : SymbolId) : Except Fault Function := do
  let { name, .. } ← table.get symbol
  let returnType ← table.returnTypeOf symbol
  return { symbol, name, returnType, entry := 0, exit := 1,
           blocks := .ofList [.labelled 0, .labelled 1] }

def addBlock (f : Function) : Function :=
  { f with blocks := f.blocks.push (.labelled f.blocks.next) }

def block? (f : Function) (id : BlockId) : Option Block :=
  f.blocks.get? id

def block (f : Function) (id : BlockId) : Except Fault Block :=
  match f.block? id with
  | some block => .ok block
  | none => .error .outOfRange

def setBlock (f : Function) (id : BlockId) (block : Block) : Function :=
  { f with blocks := f.blocks.set id block }

def modifyBlock (f : Function) (id : BlockId) (change : Block → Block) : Function :=
  match f.block? id with
  | some block => f.setBlock id (change block)
  | none => f

/-- Assembly name of a block.  Only the exit has a name of its own. -/
def labelOf (f : Function) (id : BlockId) : String :=
  if id = f.exit then s!".L{f.name}_exit" else s!".L{f.name}_{id}"

def instructionsOf (f : Function) (id : BlockId) : List Instruction :=
  (f.block? id).elim [] Block.instructions

def successorsOf (f : Function) (id : BlockId) : List BlockId :=
  (f.block? id).elim [] Block.successors

theorem length_successorsOf_le (f : Function) (id : BlockId) :
    (f.successorsOf id).length ≤ 2 := by
  unfold successorsOf
  cases f.block? id with
  | none => simp
  | some block => exact block.length_successors_le

/-! ## Order of blocks -/

/-- The blocks of a depth-first walk: `stack` holds the blocks to go to, `fresh`
the ones not visited yet.  Everything behind `next` comes before `branch`. -/
def walk (f : Function) (fresh stack : List BlockId) : List BlockId :=
  match stack with
  | [] => []
  | id :: stack =>
    if _h : id ∈ fresh then id :: f.walk (fresh.erase id) (f.successorsOf id ++ stack)
    else f.walk fresh stack
termination_by 3 * fresh.length + stack.length
decreasing_by
  · have := List.length_erase_of_mem _h
    have := List.length_pos_of_mem _h
    have := f.length_successorsOf_le id
    simp only [List.length_append, List.length_cons]
    omega
  · simp

def interior (f : Function) : List BlockId :=
  f.walk (f.blocks.handles.erase f.exit) [f.entry]

/-- Every block of the function once; the exit is the last one and always
there. -/
def preorder (f : Function) : List BlockId :=
  f.interior ++ [f.exit]

def contains (f : Function) (id : BlockId) : Bool :=
  id < f.blocks.size

def isLinked (f : Function) : Bool :=
  f.contains f.entry && f.contains f.exit
    && f.interior.all fun id => (f.successorsOf id).all f.contains

def order (f : Function) : Except Fault (List BlockId) :=
  if f.isLinked then .ok f.preorder else .error .outOfRange

def predecessors (f : Function) : Except Fault (Arena (List BlockId)) := do
  let order ← f.order
  if (f.successorsOf f.exit).all f.contains then
    return .ofList (f.blocks.handles.map fun id => order.filter fun p => id ∈ f.successorsOf p)
  else throw .outOfRange

/-! ## Linear form -/

/-- Where a block has to jump to at its end, if `following` is the block behind
it. -/
def jumpFrom (f : Function) (id : BlockId) (following : Option BlockId) : Option BlockId := do
  let block ← f.block? id
  let next ← block.next
  if !block.isTerminated && following != some next then some next else none

def layoutOf (f : Function) : List BlockId → List (BlockId × Option BlockId)
  | [] => []
  | id :: rest => (id, f.jumpFrom id rest.head?) :: f.layoutOf rest

/-- The blocks in depth-first order, each with the jump it needs at its end
because the block it goes on to is not the one behind it. -/
def layout (f : Function) : Except Fault (List (BlockId × Option BlockId)) := do
  return f.layoutOf (← f.order)

def linearize (f : Function) : Except Fault (List Instruction) := do
  return (← f.layout).flatMap fun (id, jump) =>
    f.instructionsOf id ++ jump.toList.map .goto

def instructions (f : Function) : Except Fault (List Instruction) := do
  return (← f.order).flatMap f.instructionsOf

end Function

structure Module where
  symbols : SymbolTable := {}
  functions : List Function := []
deriving DecidableEq, Repr

end Cinder.Flow
