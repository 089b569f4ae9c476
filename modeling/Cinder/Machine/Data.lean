import Cinder.Machine.Assembly
import Cinder.Pool

/-!
# The data section

Floating point constants have no immediate form and are read from memory.  The
data section holds each distinct one once.
-/

namespace Cinder.Machine

/-- The directive that lays a floating point constant down.  Infinities and NaNs
have no decimal spelling and are given by their bits. -/
def dataDirective : Constant → Except Fault String
  | .float .w32 x =>
    .ok (if x.datum.isFinite then s!".float {x.scientific}" else s!".long {x.hex}")
  | .float .w64 x =>
    .ok (if x.datum.isFinite then s!".double {x.scientific}" else s!".quad {x.hex}")
  | c => .error (.foreignPoolEntry c)

def dataEntry (entry : Nat) (c : Constant) : Except Fault (List Line) := do
  let directive ← dataDirective c
  .ok [.directive s!".align {c.ty.bytes}", .label (dataLabel entry), .directive directive]

def dataEntriesFrom (entry : Nat) : List Constant → Except Fault (List Line)
  | [] => .ok []
  | c :: rest => do
    let first ← dataEntry entry c
    let others ← dataEntriesFrom (entry + 1) rest
    .ok (first ++ others)

def dataEntries (pool : Pool Constant) : Except Fault (List Line) :=
  dataEntriesFrom 0 pool.entries

end Cinder.Machine
