import Cinder.Placement.Coloring
import Cinder.Proofs.Placement.Interference

/-!
# Colors of interfering variables

Every variable of the set is colored or put off to memory, with a color of the pool,
and no two variables that interfere get the same one.  A variable is put off only if its
neighbors hold all colors, and none is if they are few enough.
-/

namespace Cinder

open Cinder.Flow

theorem lastMax_eq_none {α : Type} {key : α → Nat} {l : List α} (h : lastMax key l = none) :
    l = [] := by
  cases l with
  | nil => rfl
  | cons a rest =>
    rw [lastMax] at h
    split at h
    · cases h
    · split at h <;> cases h

namespace Interference

variable {ρ : Type} {g : Interference} {pool : List ρ} {remaining : VariableSet}
  {u v : Variable} {coloring : Coloring ρ} {c : ρ}

theorem not_mem_of_pick_eq_none {colors : Nat} (h : g.pick colors remaining = none) :
    v ∉ remaining := by
  unfold pick at h
  split at h
  · cases h
  · rw [← Std.ExtTreeSet.mem_toList, lastMax_eq_none h]
    exact List.not_mem_nil

structure Colors (g : Interference) (pool : List ρ) (remaining : VariableSet)
    (coloring : Coloring ρ) : Prop where
  mem_iff : ∀ {v}, v ∈ coloring ↔ v ∈ remaining
  mem_pool : ∀ {v : Variable} {c}, coloring[v]? = some (some c) → c ∈ pool
  ne_of_clash : ∀ {u v : Variable} {c}, u ≠ v → g.Clash u v → coloring[u]? = some (some c) →
    coloring[v]? ≠ some (some c)

theorem mem_taken (hv : v ∈ g.neighbors u)
    (hc : coloring[v]? = some (some c)) : c ∈ g.taken coloring u :=
  List.mem_filterMap.2 ⟨v, Std.ExtTreeSet.mem_toList.2 hv, by rw [hc]; rfl⟩

theorem exists_of_mem_taken (h : c ∈ g.taken coloring v) :
    ∃ u ∈ g.neighbors v, coloring[u]? = some (some c) := by
  obtain ⟨u, hu, hc⟩ := List.mem_filterMap.1 h
  exact ⟨u, Std.ExtTreeSet.mem_toList.1 hu, Option.join_eq_some_iff.1 hc⟩

/-- Only neighbors that are colored take a color away. -/
theorem length_taken_le (h : ∀ {u}, u ∈ coloring → u ∈ remaining) :
    (g.taken coloring v).length ≤ g.degree remaining v := by
  rw [taken, List.length_filterMap_eq_countP, degree]
  refine List.countP_mono_left fun u _ hu => ?_
  obtain ⟨c, hc⟩ := Option.isSome_iff_exists.1 hu
  have hmem : u ∈ coloring :=
    Std.ExtTreeMap.mem_iff_isSome_getElem?.2 (by rw [Option.join_eq_some_iff.1 hc]; rfl)
  exact Std.ExtTreeSet.mem_iff_contains.1 (h hmem)

variable [DecidableEq ρ]

theorem Colors.insert (h : g.Colors pool (remaining.erase v) coloring) (hv : v ∈ remaining) :
    g.Colors pool remaining (coloring.insert v (pool.find? (· ∉ g.taken coloring v))) := by
  have hget : ∀ w, (coloring.insert v (pool.find? (· ∉ g.taken coloring v)))[w]? =
      if v = w then some (pool.find? (· ∉ g.taken coloring v)) else coloring[w]? := by
    intro w
    simp only [Std.ExtTreeMap.getElem?_insert, Std.LawfulEqCmp.compare_eq_iff_eq]
  have hfree : ∀ {w c}, pool.find? (· ∉ g.taken coloring v) = some c → w ∈ g.neighbors v →
      coloring[w]? ≠ some (some c) := by
    intro w c hfind hw hc
    have hnot := List.find?_some hfind
    exact of_decide_eq_true hnot (mem_taken hw hc)
  constructor
  · intro w
    rw [Std.ExtTreeMap.mem_insert, Std.LawfulEqCmp.compare_eq_iff_eq, h.mem_iff,
      Std.ExtTreeSet.mem_erase, Ne, Std.LawfulEqCmp.compare_eq_iff_eq]
    constructor
    · rintro (rfl | hw)
      · exact hv
      · exact hw.2
    · intro hw
      by_cases hvw : v = w
      · exact .inl hvw
      · exact .inr ⟨hvw, hw⟩
  · intro w c hc
    rw [hget] at hc
    split at hc
    · exact List.mem_of_find?_eq_some (Option.some.inj hc)
    · exact h.mem_pool hc
  · intro w w' c hne hclash hc hc'
    rw [hget] at hc hc'
    split at hc
    · rename_i hw
      subst hw
      rw [if_neg hne] at hc'
      exact hfree (Option.some.inj hc) hclash.1 hc'
    · split at hc'
      · rename_i hw'
        subst hw'
        exact hfree (Option.some.inj hc') hclash.2 hc
      · exact h.ne_of_clash hne hclash hc hc'

theorem colors_color (g : Interference) (pool : List ρ) (remaining : VariableSet) :
    g.Colors pool remaining (g.color pool remaining) := by
  fun_induction color g pool remaining with
  | case1 remaining h =>
    constructor
    · intro v
      exact iff_of_false Std.ExtTreeMap.not_mem_empty (not_mem_of_pick_eq_none h)
    · intro v c hc
      simp at hc
    · intro u v c _ _ hc
      simp at hc
  | case2 remaining v h coloring ih => exact ih.insert (mem_of_pick h)

/-! ## Colors that are left -/

/-- Graphs that are built from variables and connections. -/
inductive Built : Interference → Prop where
  | empty : Built {}
  | node {g : Interference} (h : Built g) (v : Variable) : Built (g.addNode v)
  | edge {g : Interference} (h : Built g) (a b : Variable) : Built (g.addEdge a b)

/-- No variable is next to itself, and those next to it have it next to them. -/
theorem Built.clash (h : g.Built) (hv : v ∈ g.neighbors u) : u ≠ v ∧ g.Clash u v := by
  induction h generalizing u v with
  | empty => simp [neighbors] at hv
  | node _ _ ih =>
    simp only [Clash, neighbors_addNode] at hv ⊢
    exact ih hv
  | @edge g _ a b ih =>
    unfold addEdge at hv ⊢
    split at hv
    · rename_i hab
      rw [if_pos hab]
      exact ih hv
    · rename_i hab
      rw [if_neg hab]
      simp only [Clash, mem_neighbors_link] at hv ⊢
      rcases hv with ⟨rfl, rfl⟩ | ⟨rfl, rfl⟩ | hv
      · exact ⟨Ne.symm hab, by simp⟩
      · exact ⟨hab, by simp⟩
      · obtain ⟨hne, huv, hvu⟩ := ih hv
        exact ⟨hne, .inr (.inr huv), .inr (.inr hvu)⟩

/-- Every part of the candidates has a variable with fewer neighbors in it than there are
colors. -/
def Sparse (g : Interference) (colors : Nat) (candidates : VariableSet) : Prop :=
  ∀ part : VariableSet, (∀ v ∈ part, v ∈ candidates) → (∃ v, v ∈ part) →
    ∃ v ∈ part, g.degree part v < colors

theorem Sparse.degree_lt {colors : Nat} (hs : g.Sparse colors remaining)
    (h : g.pick colors remaining = some v) : g.degree remaining v < colors := by
  have hv := mem_of_pick h
  unfold pick at h
  split at h
  · rename_i hfind
    cases h
    simpa using List.find?_some hfind
  · rename_i hfind
    obtain ⟨w, hw, hlt⟩ := hs remaining (fun _ hw => hw) ⟨v, hv⟩
    exact absurd (decide_eq_true hlt)
      (List.find?_eq_none.1 hfind w (Std.ExtTreeSet.mem_toList.2 hw))

/-- What coloring the candidates gives: a color of the pool or none for each of them, not the
same one for two that are next to each other, and none only where it has to be. -/
structure Allots (g : Interference) (pool : List ρ) (candidates : VariableSet)
    (coloring : Coloring ρ) : Prop where
  mem_iff : ∀ v, v ∈ coloring ↔ v ∈ candidates
  mem_pool : ∀ (v : Variable) c, coloring[v]? = some (some c) → c ∈ pool
  ne : ∀ (u v : Variable) c, g.interferes u v = true → coloring[u]? = some (some c) →
    coloring[v]? ≠ some (some c)
  held : ∀ v : Variable, coloring[v]? = some none → ∀ c ∈ pool,
    ∃ u, g.interferes v u = true ∧ coloring[u]? = some (some c)
  colored : g.Sparse pool.length candidates → ∀ v : Variable, coloring[v]? ≠ some none

/-- A variable that gets no color has a neighbor of every color, and keeps it. -/
theorem held_color (g : Interference) (pool : List ρ) (remaining : VariableSet) :
    ∀ v : Variable, (g.color pool remaining)[v]? = some none → ∀ c ∈ pool,
      ∃ u ∈ g.neighbors v, (g.color pool remaining)[u]? = some (some c) := by
  fun_induction color g pool remaining with
  | case1 => simp
  | case2 remaining w h coloring ih =>
    have hkept : ∀ {u : Variable} {x}, coloring[u]? = some x →
        (coloring.insert w (pool.find? (· ∉ g.taken coloring w)))[u]? = some x := by
      intro u x hu
      have hne : w ≠ u := by
        rintro rfl
        have hmem := Std.ExtTreeMap.mem_iff_isSome_getElem?.2 (Option.isSome_of_eq_some hu)
        rw [(colors_color g pool _).mem_iff] at hmem
        simp at hmem
      rw [Std.ExtTreeMap.getElem?_insert, if_neg (by simpa using hne), hu]
    intro v hv c hc
    rw [Std.ExtTreeMap.getElem?_insert] at hv
    split at hv
    · rename_i hw
      rw [Std.LawfulEqCmp.compare_eq_iff_eq] at hw
      have htaken := List.find?_eq_none.1 (Option.some.inj hv) c hc
      obtain ⟨u, hu, hcolor⟩ := exists_of_mem_taken (by simpa using htaken)
      exact ⟨u, hw ▸ hu, hkept hcolor⟩
    · obtain ⟨u, hu, hcolor⟩ := ih v hv c hc
      exact ⟨u, hu, hkept hcolor⟩

/-- Among few enough neighbors a color is left for every variable. -/
theorem Sparse.color_ne (hs : g.Sparse pool.length remaining) (hpool : pool.Nodup) (v : Variable) :
    (g.color pool remaining)[v]? ≠ some none := by
  fun_induction color g pool remaining with
  | case1 => simp
  | case2 remaining w h coloring ih =>
    intro hv
    rw [Std.ExtTreeMap.getElem?_insert] at hv
    split at hv
    · have hsubset : pool ⊆ g.taken coloring w := fun c hc => by
        simpa using List.find?_eq_none.1 (Option.some.inj hv) c hc
      have htaken : (g.taken coloring w).length ≤ g.degree remaining w := by
        refine length_taken_le fun hu => ?_
        rw [(colors_color g pool _).mem_iff] at hu
        exact Std.ExtTreeSet.mem_of_mem_erase hu
      have hlength := hpool.length_le_of_subset hsubset
      have hdegree := hs.degree_lt h
      omega
    · refine ih (fun part hpart => hs part fun u hu => ?_) hv
      exact Std.ExtTreeSet.mem_of_mem_erase (hpart u hu)

theorem Built.allots_color (h : g.Built) (hpool : pool.Nodup) (candidates : VariableSet) :
    g.Allots pool candidates (g.color pool candidates) where
  mem_iff _ := (colors_color g pool candidates).mem_iff
  mem_pool _ _ := (colors_color g pool candidates).mem_pool
  ne u v c hadjacent := by
    obtain ⟨hne, hclash⟩ := h.clash (Std.ExtTreeSet.mem_iff_contains.2 hadjacent)
    exact (colors_color g pool candidates).ne_of_clash hne hclash
  held v hv c hc := by
    obtain ⟨u, hu, hcolor⟩ := held_color g pool candidates v hv c hc
    exact ⟨u, Std.ExtTreeSet.mem_iff_contains.1 hu, hcolor⟩
  colored hs := hs.color_ne hpool

def triangle : Interference :=
  ((({} : Interference).addEdge ⟨0, 0⟩ ⟨1, 0⟩).addEdge ⟨0, 0⟩ ⟨2, 0⟩).addEdge ⟨1, 0⟩ ⟨2, 0⟩

theorem Built.allots_color_triangle :
    triangle.Built ∧ [true, false].Nodup ∧
      let candidates : VariableSet := .ofList ([⟨0, 0⟩, ⟨1, 0⟩, ⟨2, 0⟩] : List Variable)
      triangle.Allots [true, false] candidates (triangle.color [true, false] candidates) := by
  have hbuilt : triangle.Built := .edge (.edge (.edge .empty _ _) _ _) _ _
  exact ⟨hbuilt, by decide, hbuilt.allots_color (by decide) _⟩

end Interference

end Cinder
