import Cinder.Proofs.Flow.Walk
import Mathlib.Data.Set.Insert

/-!
# The recursive traversal

A walk keeps the blocks that it still has to go to on a stack, where a block may stand more than
once.  It lists the blocks that the recursive traversal lists, in the same order: a block, then
everything behind its `next` link, then everything behind its `branch` link.
-/

namespace Cinder.Flow.Function

variable {f : Function} {id : BlockId}

/-- The blocks that the recursive traversal lists from a link on, given the blocks that were
visited before it, and the blocks that are visited behind it. -/
inductive Explores (f : Function) : Set BlockId → Option BlockId → List BlockId → Set BlockId →
    Prop where
  | nowhere {visited} : Explores f visited none [] visited
  | seen {visited id} (h : id ∈ visited) : Explores f visited (some id) [] visited
  | visit {visited id block l middle l' visited'} (h : id ∉ visited)
      (hb : f.block? id = some block) (hnext : Explores f (insert id visited) block.next l middle)
      (hbranch : Explores f middle block.branch l' visited') :
      Explores f visited (some id) (id :: (l ++ l')) visited'

theorem Explores.unique {visited v v' : Set BlockId} {link : Option BlockId} {l l' : List BlockId}
    (h : f.Explores visited link l v) (h' : f.Explores visited link l' v') : l = l' ∧ v = v' := by
  induction h generalizing l' v' with
  | nowhere =>
    cases h'
    exact ⟨rfl, rfl⟩
  | seen hid =>
    cases h' with
    | seen => exact ⟨rfl, rfl⟩
    | visit hnot => exact absurd hid hnot
  | visit hnot hb _ _ ihnext ihbranch =>
    cases h' with
    | seen hid => exact absurd hid hnot
    | visit _ hb' hnext' hbranch' =>
      cases hb.symm.trans hb'
      obtain ⟨rfl, rfl⟩ := ihnext hnext'
      obtain ⟨rfl, rfl⟩ := ihbranch hbranch'
      exact ⟨rfl, rfl⟩

/-- The fresh blocks are the ones that have not been visited, each of them once. -/
structure Unvisited (f : Function) (fresh : List BlockId) (visited : Set BlockId) : Prop where
  nodup : fresh.Nodup
  mem_iff : ∀ id < f.blocks.size, id ∈ fresh ↔ id ∉ visited

theorem Unvisited.erase {fresh : List BlockId} {visited : Set BlockId}
    (h : f.Unvisited fresh visited) (id : BlockId) :
    f.Unvisited (fresh.erase id) (insert id visited) where
  nodup := h.nodup.erase id
  mem_iff n hn := by
    rw [h.nodup.mem_erase_iff, h.mem_iff n hn, Set.mem_insert_iff, not_or]

/-- A walk lists what is behind the link on top of its stack before it turns to the rest. -/
theorem Enclosed.exists_explores (he : f.Enclosed) {fresh : List BlockId} {visited : Set BlockId}
    (hfresh : f.Unvisited fresh visited) {link : Option BlockId}
    (hlink : ∀ id ∈ link, id < f.blocks.size) :
    ∃ l fresh' visited', f.Explores visited link l visited' ∧ f.Unvisited fresh' visited' ∧
      fresh'.length ≤ fresh.length ∧
      ∀ stack, f.walk fresh (link.toList ++ stack) = l ++ f.walk fresh' stack := by
  -- the walk behind `next` leaves fewer fresh blocks to the one behind `branch`
  induction hn : fresh.length using Nat.strongRecOn generalizing fresh visited link with
  | ind n ih =>
    subst hn
    cases link with
    | none => exact ⟨[], fresh, visited, .nowhere, hfresh, Nat.le_refl _, fun _ => rfl⟩
    | some id =>
      have hlt := hlink id rfl
      by_cases hid : id ∈ fresh
      · obtain ⟨block, hb⟩ : ∃ block, f.block? id = some block := ⟨_, Array.getElem?_eq_getElem hlt⟩
        have hlength := List.length_erase_of_mem hid
        have hpos := List.length_pos_of_mem hid
        have hsuccessors : ∀ n ∈ block.successors, n < f.blocks.size := fun n hn =>
          he.successors ((edge_of_block? hb).2 hn)
        have hnexts : ∀ n ∈ block.next, n < f.blocks.size := fun n hn =>
          hsuccessors n (List.mem_append_left _ (Option.mem_toList.2 hn))
        have hbranches : ∀ n ∈ block.branch, n < f.blocks.size := fun n hn =>
          hsuccessors n (List.mem_append_right _ (Option.mem_toList.2 hn))
        obtain ⟨l, fresh₁, middle, hnext, hfresh₁, hle₁, hwalk₁⟩ :=
          ih _ (by omega) (hfresh.erase id) hnexts rfl
        obtain ⟨l', fresh₂, visited', hbranch, hfresh₂, hle₂, hwalk₂⟩ :=
          ih _ (by omega) hfresh₁ hbranches rfl
        have hnot := (hfresh.mem_iff id hlt).1 hid
        refine ⟨_, fresh₂, visited', .visit hnot hb hnext hbranch, hfresh₂, by omega,
          fun stack => ?_⟩
        rw [Option.toList_some, List.singleton_append, walk_cons_of_mem hid,
          successorsOf_of_block? hb, Block.successors, List.append_assoc, hwalk₁, hwalk₂,
          List.cons_append, List.append_assoc]
      · have hseen : id ∈ visited := by simpa using (hfresh.mem_iff id hlt).not.1 hid
        exact ⟨[], fresh, visited, .seen hseen, hfresh, Nat.le_refl _, fun stack =>
          walk_cons_of_not_mem hid⟩

/-- The interior is what the recursive traversal lists if the exit counts as visited. -/
theorem Enclosed.exists_explores_interior (he : f.Enclosed) :
    ∃ visited, f.Explores {f.exit} (some f.entry) f.interior visited := by
  have hfresh : f.Unvisited (f.blocks.handles.erase f.exit) {f.exit} := by
    have hnodup : f.blocks.handles.Nodup := List.nodup_range
    refine ⟨hnodup.erase _, fun id hid => ?_⟩
    rw [hnodup.mem_erase_iff, Set.mem_singleton_iff, and_iff_left (mem_handles.2 hid)]
  have hentry : ∀ id ∈ some f.entry, id < f.blocks.size := by simpa using he.entry
  obtain ⟨l, fresh', visited', hexplores, -, -, hwalk⟩ := he.exists_explores hfresh hentry
  have hinterior : f.interior = l := by
    have := hwalk []
    simpa [walk, interior] using this
  exact ⟨visited', hinterior ▸ hexplores⟩

/-- Control gets from the entry to a block without passing the exit. -/
def Inside (f : Function) : BlockId → Prop :=
  Relation.ReflTransGen (fun j n => f.Edge j n ∧ n ≠ f.exit) f.entry

theorem Enclosed.mem_interior_iff (he : f.Enclosed) (hne : f.entry ≠ f.exit) :
    id ∈ f.interior ↔ f.Inside id := by
  constructor
  · intro hid
    obtain ⟨s, hs, hpath⟩ := reached_of_mem_walk hid
    rw [List.mem_singleton.1 hs] at hpath
    have hexit := ne_exit_of_mem_interior hid
    clear hid
    induction hpath with
    | refl => exact .refl
    | tail _ hstep ih => exact (ih (ne_exit_of_mem_interior hstep.1)).tail ⟨hstep.2, hexit⟩
  · intro h
    induction h with
    | refl => exact (mem_preorder_of_ne hne).1 (entry_mem_preorder he.entry)
    | tail _ hstep ih =>
      exact (mem_preorder_of_ne hstep.2).1
        (mem_preorder_of_successor ih hstep.1 (he.successors hstep.1))

/-- The blocks in depth-first order: the entry, what else control gets to without passing the
exit, and the exit, all of them once and in the order of the recursive traversal. -/
theorem Enclosed.exists_order (he : f.Enclosed) (hne : f.entry ≠ f.exit) :
    ∃ inner, f.order = .ok (f.entry :: inner ++ [f.exit]) ∧
      (f.entry :: inner ++ [f.exit]).Nodup ∧ (∀ id, id ∈ f.entry :: inner ↔ f.Inside id) ∧
      ∀ l, (∃ visited, f.Explores {f.exit} (some f.entry) l visited) ↔ l = f.entry :: inner := by
  obtain ⟨visited, hexplores⟩ := he.exists_explores_interior
  obtain ⟨inner, hinner⟩ : ∃ inner, f.interior = f.entry :: inner :=
    ⟨_, walk_cons_of_mem ((List.mem_erase_of_ne hne).2 (mem_handles.2 he.entry))⟩
  have hpreorder : f.preorder = f.entry :: inner ++ [f.exit] := by rw [preorder, hinner]
  refine ⟨inner, hpreorder ▸ he.order, hpreorder ▸ f.nodup_preorder, ?_, fun l => ⟨?_, ?_⟩⟩
  · rw [← hinner]
    exact fun id => he.mem_interior_iff hne
  · rintro ⟨visited', h⟩
    exact hinner ▸ (h.unique hexplores).1
  · rintro rfl
    exact ⟨visited, hinner ▸ hexplores⟩

def braid : Function where
  symbol := 0
  name := "braid"
  returnType := none
  entry := 0
  exit := 1
  blocks := .ofList [⟨[], some 2, some 3⟩, ⟨[], none, none⟩, ⟨[], some 0, some 2⟩,
    ⟨[], some 2, some 1⟩, ⟨[], some 0, none⟩]

theorem Enclosed.exists_order_braid :
    braid.Enclosed ∧ braid.entry ≠ braid.exit ∧ braid.order = .ok [0, 2, 3, 1] ∧
      ∀ l, (∃ visited, braid.Explores {1} (some 0) l visited) ↔ l = [0, 2, 3] := by
  have he : braid.Enclosed := .of_forall (by decide) (by decide) (by decide)
  have hne : braid.entry ≠ braid.exit := by decide
  have hpreorder : braid.preorder = [0, 2, 3, 1] := by decide +kernel
  have hbraid : braid.order = .ok [0, 2, 3, 1] := hpreorder ▸ he.order
  obtain ⟨inner, horder, -, -, hexplores⟩ := he.exists_order hne
  have hinner : braid.entry :: inner = [0, 2, 3] :=
    List.append_cancel_right (Except.ok.inj (horder.symm.trans hbraid))
  exact ⟨he, hne, hbraid, hinner ▸ hexplores⟩

end Cinder.Flow.Function
