import Cinder.Placement.Coloring
import Cinder.Placement.Frame
import Cinder.Placement.Location

/-!
# Placement

Decides where every variable of a function lives.  Parameters stay where the
caller has put them.  All other variables are colored, one register file after
the other, and those without a color get a slot of the frame, packed one below
the other.  The registers that are used get slots to be saved in.
-/

namespace Cinder

open Cinder.Flow Machine

structure Placement where
  locations : Std.ExtTreeMap Variable Location
  /-- The variables without a register and their offsets, in the order of the
  frame. -/
  spills : List (Variable × Int)
  /-- Size of the frame, a multiple of 16. -/
  frameSize : Nat
  /-- The general registers that the function writes, with their save slots. -/
  savedRegs : List (Reg × Int)
  /-- The vector registers that the function uses, with the slots they are kept in
  during calls. -/
  savedXmms : List (Xmm × Int)

namespace Placement

def locate (placement : Placement) (table : SymbolTable) (v : Variable) :
    Except Fault Location :=
  match placement.locations[v]? with
  | some location => .ok location
  | none => .error (.unallocated (table.nameOf v.symbol))

def parameterLocations (table : SymbolTable) (f : Function) :
    Except Fault (List (Variable × Location)) := do
  let types ← f.parameters.mapM (Variable.typeIn table)
  return f.parameters.zip
    ((ArgumentSlot.ofClasses (types.map Ty.valueClass)).map ArgumentSlot.location)

def ofClass (typed : List (Variable × Ty)) (c : ValueClass) : VariableSet :=
  .ofList ((typed.filter fun (_, ty) => ty.valueClass = c).map Prod.fst)

def spill (table : SymbolTable) (frame : Frame) :
    List Variable → Except Fault (List (Variable × Int) × Frame)
  | [] => return ([], frame)
  | v :: rest => do
    let (offset, frame) := frame.reserve (← v.typeIn table).bytes
    let (slots, frame) ← spill table frame rest
    return ((v, offset) :: slots, frame)

def colored {ρ : Type} (coloring : Coloring ρ) : List (Variable × ρ) :=
  coloring.toList.filterMap fun (v, color) => color.map (v, ·)

def uncolored {ρ : Type} (coloring : Coloring ρ) : List Variable :=
  (coloring.toList.filter fun (_, color) => color.isNone).map Prod.fst

def ofLiveness (table : SymbolTable) (f : Function)
    (liveness : Arena (List (Point VariableSet))) : Except Fault Placement := do
  let g ← Interference.ofLiveness f liveness
  let parameters ← parameterLocations table f
  let others := g.nodes.filter (· ∉ f.parameters)
  let typed ← others.mapM fun v => return (v, ← v.typeIn table)
  let general := g.color allocatableRegs (ofClass typed .general)
  let float := g.color allocatableXmms (ofClass typed .float)
  let (spills, frame) ← spill table {} (uncolored general ++ uncolored float)
  let locations : Std.ExtTreeMap Variable Location := .ofList <| parameters
    ++ (colored general).map (fun (v, r) => (v, .reg r))
    ++ (colored float).map (fun (v, x) => (v, .xmm x))
    ++ spills.map (fun (v, offset) => (v, .stack offset))
  let used := locations.toList.map Prod.snd
  let (savedRegs, frame) := frame.reserveWords (allocatableRegs.filter (.reg · ∈ used))
  let (savedXmms, frame) := frame.reserveWords (allocatableXmms.filter (.xmm · ∈ used))
  return { locations, spills, frameSize := roundUp frame.size 16, savedRegs, savedXmms }

def ofFunction (table : SymbolTable) (f : Function) : Except Fault Placement := do
  ofLiveness table f (← f.instructionLiveness)

end Placement

end Cinder
