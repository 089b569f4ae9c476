import Cinder.Flow.Graph
import Mathlib.Data.List.Nodup

/-!
# Temporaries

Within a block a temporary is written at most once, and read only behind the
instruction that writes it.  Passes rely on this without checking it.
-/

namespace Cinder.Flow

variable {i : Instruction} {v : Variable} {l : List Instruction} {g : Instruction → Instruction}

theorem Instruction.mem_uses :
    v ∈ i.uses ↔ .var v ∈ i.operands := by
  rw [Instruction.uses, List.mem_filterMap]
  constructor
  · rintro ⟨o, ho, hov⟩
    cases o with
    | constant c => cases hov
    | var u =>
      cases hov
      exact ho
  · exact fun h => ⟨.var v, h, rfl⟩

def Instruction.temporary? (table : SymbolTable) (i : Instruction) : Option Variable :=
  i.definition.filter fun v => table.isTemporary v.symbol

def temporaries (table : SymbolTable) (instructions : List Instruction) : List Variable :=
  instructions.filterMap (Instruction.temporary? table)

/-- Every temporary that is read has been written before; `written` holds the
ones written in front of the list. -/
def ReadsWritten (table : SymbolTable) (written : List Variable) : List Instruction → Prop
  | [] => True
  | i :: rest =>
    (∀ v ∈ i.uses, table.isTemporary v.symbol = true → v ∈ written) ∧
      ReadsWritten table (written ++ (i.temporary? table).toList) rest

/-- Temporaries are written once and read afterwards. -/
structure Tidy (table : SymbolTable) (instructions : List Instruction) : Prop where
  once : (temporaries table instructions).Nodup
  ordered : ReadsWritten table [] instructions

variable {table : SymbolTable}

theorem Instruction.temporary?_eq_some :
    i.temporary? table = some v ↔ i.definition = some v ∧ table.isTemporary v.symbol = true := by
  simp [temporary?, Option.filter_eq_some_iff]

@[simp] theorem temporaries_nil : temporaries table [] = [] := rfl

theorem temporaries_cons (i : Instruction) (rest : List Instruction) :
    temporaries table (i :: rest) = (i.temporary? table).toList ++ temporaries table rest := by
  unfold temporaries
  cases h : i.temporary? table with
  | none => simp [List.filterMap_cons_none h]
  | some v => simp [List.filterMap_cons_some h]

theorem temporaries_append (l l' : List Instruction) :
    temporaries table (l ++ l') = temporaries table l ++ temporaries table l' := by
  simp [temporaries]

theorem mem_temporaries :
    v ∈ temporaries table l ↔
      table.isTemporary v.symbol = true ∧ ∃ i ∈ l, i.definition = some v := by
  simp only [temporaries, List.mem_filterMap, Instruction.temporary?_eq_some]
  constructor
  · rintro ⟨i, hi, hdef, htemp⟩
    exact ⟨htemp, i, hi, hdef⟩
  · rintro ⟨htemp, i, hi, hdef⟩
    exact ⟨i, hi, hdef, htemp⟩

theorem readsWritten_append (written : List Variable) (l l' : List Instruction) :
    ReadsWritten table written (l ++ l') ↔
      ReadsWritten table written l ∧ ReadsWritten table (written ++ temporaries table l) l' := by
  induction l generalizing written with
  | nil => simp [ReadsWritten]
  | cons i rest ih =>
    rw [List.cons_append, ReadsWritten, ReadsWritten, ih, temporaries_cons, and_assoc,
      List.append_assoc]

theorem ReadsWritten.mem {done rest : List Instruction}
    (h : ReadsWritten table [] (done ++ i :: rest)) (hv : v ∈ i.uses)
    (htemp : table.isTemporary v.symbol = true) : v ∈ temporaries table done := by
  rw [readsWritten_append] at h
  simpa using h.2.1 v hv htemp

section

variable (hdef : ∀ i ∈ l, (g i).definition = i.definition)

include hdef

/-- Replacing instructions by ones that write the same and read no more. -/
theorem ReadsWritten.map (huses : ∀ i ∈ l, (g i).uses ⊆ i.uses) {written : List Variable}
    (h : ReadsWritten table written l) :
    ReadsWritten table written (l.map g) := by
  induction l generalizing written with
  | nil => exact trivial
  | cons i rest ih =>
    have htemp : (g i).temporary? table = i.temporary? table := by
      rw [Instruction.temporary?, hdef i (by simp), Instruction.temporary?]
    rw [List.map_cons, ReadsWritten, htemp]
    refine ⟨fun v hv => h.1 v (huses i (by simp) hv), ?_⟩
    exact ih (fun j hj => hdef j (by simp [hj])) (fun j hj => huses j (by simp [hj])) h.2

theorem temporaries_map : temporaries table (l.map g) = temporaries table l := by
  unfold temporaries
  rw [List.filterMap_map]
  apply List.filterMap_congr
  intro i hi
  simp [Instruction.temporary?, hdef i hi]

theorem Tidy.map (huses : ∀ i ∈ l, (g i).uses ⊆ i.uses) (h : Tidy table l) : Tidy table (l.map g) :=
  ⟨temporaries_map hdef ▸ h.once, h.ordered.map hdef huses⟩

end

theorem ReadsWritten.filter {p : Instruction → Bool}
    (hp : ∀ i ∈ l, p i = false → ∀ v, i.definition = some v → ∀ j ∈ l, v ∉ j.uses)
    {written written' : List Variable} (hsub : ∀ v ∈ written, (∃ j ∈ l, v ∈ j.uses) → v ∈ written')
    (h : ReadsWritten table written l) : ReadsWritten table written' (l.filter p) := by
  induction l generalizing written written' with
  | nil => exact trivial
  | cons i rest ih =>
    have hp' : ∀ j ∈ rest, p j = false → ∀ v, j.definition = some v → ∀ k ∈ rest, v ∉ k.uses :=
      fun j hj hpj v hv k hk => hp j (by simp [hj]) hpj v hv k (by simp [hk])
    by_cases hpi : p i = true
    · rw [List.filter_cons_of_pos hpi, ReadsWritten]
      refine ⟨fun v hv htemp => hsub v (h.1 v hv htemp) ⟨i, by simp, hv⟩, ?_⟩
      refine ih hp' ?_ h.2
      rintro v hv ⟨j, hj, hjv⟩
      rcases List.mem_append.1 hv with hv | hv
      · exact List.mem_append_left _ (hsub v hv ⟨j, by simp [hj], hjv⟩)
      · exact List.mem_append_right _ hv
    · rw [List.filter_cons_of_neg hpi]
      refine ih hp' ?_ h.2
      rintro v hv ⟨j, hj, hjv⟩
      rcases List.mem_append.1 hv with hv | hv
      · exact hsub v hv ⟨j, by simp [hj], hjv⟩
      · -- the instruction that is left out has no reader
        rw [Option.mem_toList, Instruction.temporary?_eq_some] at hv
        exact absurd hjv (hp i (by simp) (by simpa using hpi) v hv.1 j (by simp [hj]))

theorem Tidy.filter {p : Instruction → Bool}
    (hp : ∀ i ∈ l, p i = false → ∀ v, i.definition = some v → ∀ j ∈ l, v ∉ j.uses)
    (h : Tidy table l) : Tidy table (l.filter p) :=
  ⟨h.once.sublist (List.filter_sublist.filterMap _), h.ordered.filter hp (fun _ hv _ => hv)⟩

theorem Tidy.of_append_left {l' : List Instruction} (h : Tidy table (l ++ l')) :
    Tidy table l := by
  refine ⟨?_, ((readsWritten_append [] l l').1 h.ordered).1⟩
  have honce := h.once
  rw [temporaries_append] at honce
  exact honce.of_append_left

/-- What is written once is not written again. -/
theorem Tidy.definition_ne {done rest : List Instruction} (h : Tidy table (done ++ i :: rest))
    (hv : v ∈ temporaries table done) :
    i.definition ≠ some v := by
  intro hdef
  have honce := h.once
  rw [temporaries_append, temporaries_cons] at honce
  have htemp : i.temporary? table = some v :=
    Instruction.temporary?_eq_some.2 ⟨hdef, (mem_temporaries.1 hv).1⟩
  have hdisjoint := (List.nodup_append.1 honce).2.2 v hv v
  simp [htemp] at hdisjoint

end Cinder.Flow
