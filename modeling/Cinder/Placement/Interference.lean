import Cinder.Flow.Liveness
import Std.Data.ExtTreeMap

/-!
# Interference

Two variables interfere if one is written while the other one is live, so that
they cannot share a register.
-/

namespace Cinder

open Cinder.Flow

structure Interference where
  adjacency : Std.ExtTreeMap Variable VariableSet := ∅

namespace Interference

def neighbors (g : Interference) (v : Variable) : VariableSet :=
  g.adjacency.getD v ∅

def nodes (g : Interference) : List Variable :=
  g.adjacency.keys

def interferes (g : Interference) (a b : Variable) : Bool :=
  (g.neighbors a).contains b

def addNode (g : Interference) (v : Variable) : Interference :=
  ⟨g.adjacency.insertIfNew v ∅⟩

def addNodes (g : Interference) (vs : List Variable) : Interference :=
  vs.foldl addNode g

def link (g : Interference) (a b : Variable) : Interference :=
  ⟨g.adjacency.insert a ((g.neighbors a).insert b)⟩

/-- Connects two variables.  A variable does not interfere with itself. -/
def addEdge (g : Interference) (a b : Variable) : Interference :=
  if a = b then g else (g.link a b).link b a

def addEdges (g : Interference) (a : Variable) (bs : List Variable) : Interference :=
  bs.foldl (fun g b => g.addEdge a b) g

def addClique (g : Interference) : List Variable → Interference
  | [] => g
  | v :: rest => (g.addEdges v rest).addClique rest

def addPoint (g : Interference) (i : Instruction) (point : Point VariableSet) : Interference :=
  let g := (g.addNodes i.uses).addNodes point.before.toList
  match i.definition with
  | none => g
  | some v => (g.addNode v).addEdges v point.after.toList

/-- The interference of a function.  Variables that are live on entry are live
together from the start. -/
def ofLiveness (f : Function) (liveness : Arena (List (Point VariableSet))) :
    Except Fault Interference := do
  let order ← f.order
  let points (id : BlockId) := (liveness.get? id).getD []
  let g : Interference := addNodes {} f.parameters
  let g := (order.flatMap fun id => (f.instructionsOf id).zip (points id)).foldl
    (fun g (i, point) => g.addPoint i point) g
  return match points f.entry with
    | [] => g
    | first :: _ => g.addClique first.before.toList

theorem mem_neighbors_link {g : Interference} {a b u v : Variable} :
    v ∈ (g.link a b).neighbors u ↔ (u = a ∧ v = b) ∨ v ∈ g.neighbors u := by
  simp only [link, neighbors, Std.ExtTreeMap.getD_insert, Std.LawfulEqCmp.compare_eq_iff_eq]
  split <;> rename_i h
  · subst h
    simp only [Std.ExtTreeSet.mem_insert, Std.LawfulEqCmp.compare_eq_iff_eq, true_and]
    rw [eq_comm]
  · exact ⟨.inr, fun h' => h'.elim (fun h' => absurd h'.1.symm h) id⟩

end Interference

end Cinder
