import Cinder.Placement.Interference

/-!
# Coloring

Gives registers to the variables of an interference graph.  A variable with fewer
neighbors than there are registers can always be colored after all others; if
there is none, the one with the most neighbors is left for later in the hope that
its neighbors share registers.
-/

namespace Cinder

open Cinder.Flow

def lastMax {α : Type} (key : α → Nat) : List α → Option α
  | [] => none
  | a :: rest =>
    match lastMax key rest with
    | none => some a
    | some b => if key b < key a then some a else some b

theorem mem_of_lastMax {α : Type} {key : α → Nat} {l : List α} {a : α}
    (h : lastMax key l = some a) : a ∈ l := by
  induction l generalizing a with
  | nil => simp [lastMax] at h
  | cons b rest ih =>
    unfold lastMax at h
    split at h
    · simp_all
    · rename_i c hc
      split at h
      · simp_all
      · exact List.mem_cons_of_mem _ (ih (Option.some.inj h ▸ hc))

/-- Colors of variables.  A variable without a color has to live in memory. -/
abbrev Coloring (ρ : Type) := Std.ExtTreeMap Variable (Option ρ)

namespace Interference

variable {ρ : Type} [DecidableEq ρ]

def degree (g : Interference) (remaining : VariableSet) (v : Variable) : Nat :=
  (g.neighbors v).toList.countP remaining.contains

/-- The variable to set aside next: the first one that is sure to get a color, or
else the one with the most neighbors. -/
def pick (g : Interference) (colors : Nat) (remaining : VariableSet) : Option Variable :=
  match remaining.toList.find? fun v => g.degree remaining v < colors with
  | some v => some v
  | none => lastMax (g.degree remaining) remaining.toList

theorem mem_of_pick {g : Interference} {colors : Nat} {remaining : VariableSet} {v : Variable}
    (h : g.pick colors remaining = some v) : v ∈ remaining := by
  unfold pick at h
  split at h
  · rename_i hfind
    exact Std.ExtTreeSet.mem_toList.1 (Option.some.inj h ▸ List.mem_of_find?_eq_some hfind)
  · exact Std.ExtTreeSet.mem_toList.1 (mem_of_lastMax h)

def taken (g : Interference) (coloring : Coloring ρ) (v : Variable) : List ρ :=
  (g.neighbors v).toList.filterMap fun u => (coloring[u]?).join

/-- Colors the variables of a set: one is set aside, the others are colored, and
then it gets the first color that no neighbor has. -/
def color (g : Interference) (pool : List ρ) (remaining : VariableSet) : Coloring ρ :=
  match _h : g.pick pool.length remaining with
  | none => ∅
  | some v =>
    let coloring := g.color pool (remaining.erase v)
    coloring.insert v (pool.find? (· ∉ g.taken coloring v))
termination_by remaining.size
decreasing_by
  have hv := mem_of_pick _h
  have hpos := List.length_pos_of_mem (Std.ExtTreeSet.mem_toList.2 hv)
  rw [Std.ExtTreeSet.length_toList] at hpos
  rw [Std.ExtTreeSet.size_erase, if_pos (Std.ExtTreeSet.mem_iff_contains.1 hv)]
  omega

end Interference

end Cinder
