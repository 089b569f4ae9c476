import Cinder.Proofs.Except
import Cinder.Proofs.Flow.Agreement

/-!
# Depth-first walks

A walk visits the fresh blocks that it can get to and no others, each of them
once.
-/

namespace Cinder.Flow.Function

variable {f : Function} {fresh stack : List BlockId} {id n : BlockId}

theorem walk_cons_of_mem (h : id ∈ fresh) :
    f.walk fresh (id :: stack) = id :: f.walk (fresh.erase id) (f.successorsOf id ++ stack) := by
  rw [walk, dif_pos h]

theorem walk_cons_of_not_mem (h : id ∉ fresh) :
    f.walk fresh (id :: stack) = f.walk fresh stack := by
  rw [walk, dif_neg h]

theorem walk_subset (f : Function) (fresh stack : List BlockId) : f.walk fresh stack ⊆ fresh := by
  fun_induction Function.walk f fresh stack with
  | case1 => exact List.nil_subset _
  | case2 fresh id stack h ih =>
    exact List.cons_subset.2 ⟨h, fun _ hn => List.mem_of_mem_erase (ih hn)⟩
  | case3 fresh id stack h ih => exact ih

theorem nodup_walk (hfresh : fresh.Nodup) : (f.walk fresh stack).Nodup := by
  fun_induction Function.walk f fresh stack with
  | case1 => exact List.nodup_nil
  | case2 fresh id stack h ih =>
    refine List.nodup_cons.2 ⟨fun hid => ?_, ih (hfresh.erase id)⟩
    exact (hfresh.mem_erase_iff.1 (f.walk_subset _ _ hid)).1 rfl
  | case3 fresh id stack h ih => exact ih hfresh

/-- What is on the stack is visited unless it has been before. -/
theorem mem_walk_of_mem_stack (hn : n ∈ stack) (hfresh : n ∈ fresh) : n ∈ f.walk fresh stack := by
  fun_induction Function.walk f fresh stack with
  | case1 => simp at hn
  | case2 fresh id stack h ih =>
    by_cases hid : n = id
    · exact List.mem_cons.2 (.inl hid)
    · refine List.mem_cons.2 (.inr (ih ?_ ((List.mem_erase_of_ne hid).2 hfresh)))
      exact List.mem_append_right _ (List.mem_of_ne_of_mem hid hn)
  | case3 fresh id stack h ih =>
    refine ih (List.mem_of_ne_of_mem ?_ hn) hfresh
    rintro rfl
    exact h hfresh

theorem walk_closed (hid : id ∈ f.walk fresh stack) (hn : n ∈ f.successorsOf id)
    (hfresh : n ∈ fresh) : n ∈ f.walk fresh stack := by
  fun_induction Function.walk f fresh stack with
  | case1 => simp at hid
  | case2 fresh first stack h ih =>
    by_cases hfirst : n = first
    · exact List.mem_cons.2 (.inl hfirst)
    · refine List.mem_cons.2 (.inr ?_)
      have hn' := (List.mem_erase_of_ne hfirst).2 hfresh
      rcases List.mem_cons.1 hid with rfl | hid
      · exact mem_walk_of_mem_stack (List.mem_append_left _ hn) hn'
      · exact ih hid hn'
  | case3 fresh first stack h ih => exact ih hid hfresh

/-! ## The order of a function -/

theorem mem_handles : n ∈ f.blocks.handles ↔ n < f.blocks.size := by
  simp [Arena.handles]

theorem mem_preorder_of_ne (h : n ≠ f.exit) : n ∈ f.preorder ↔ n ∈ f.interior := by
  simp [preorder, h]

theorem exit_mem_preorder (f : Function) : f.exit ∈ f.preorder := by
  simp [preorder]

theorem lt_size_of_mem_interior (h : n ∈ f.interior) : n < f.blocks.size :=
  mem_handles.1 (List.mem_of_mem_erase (f.walk_subset _ _ h))

theorem lt_size_of_mem_preorder (hexit : f.exit < f.blocks.size) (h : n ∈ f.preorder) :
    n < f.blocks.size := by
  by_cases hn : n = f.exit
  · rw [hn]
    exact hexit
  · exact lt_size_of_mem_interior ((mem_preorder_of_ne hn).1 h)

theorem entry_mem_preorder (h : f.entry < f.blocks.size) : f.entry ∈ f.preorder := by
  by_cases hexit : f.entry = f.exit
  · rw [hexit]
    exact f.exit_mem_preorder
  · rw [mem_preorder_of_ne hexit]
    refine mem_walk_of_mem_stack (by simp) ?_
    exact (List.mem_erase_of_ne hexit).2 (mem_handles.2 h)

theorem mem_preorder_of_successor (hid : id ∈ f.interior) (hn : n ∈ f.successorsOf id)
    (hlt : n < f.blocks.size) : n ∈ f.preorder := by
  by_cases hexit : n = f.exit
  · rw [hexit]
    exact f.exit_mem_preorder
  · rw [mem_preorder_of_ne hexit]
    exact walk_closed hid hn ((List.mem_erase_of_ne hexit).2 (mem_handles.2 hlt))

theorem ne_exit_of_mem_interior (h : id ∈ f.interior) : id ≠ f.exit :=
  ((List.nodup_range.mem_erase_iff (l := f.blocks.handles)).1 (f.walk_subset _ _ h)).1

theorem nodup_preorder (f : Function) : f.preorder.Nodup := by
  refine List.nodup_append.2 ⟨nodup_walk (List.nodup_range.erase _), List.nodup_singleton _, ?_⟩
  intro a ha b hb
  rw [List.mem_singleton.1 hb]
  exact ne_exit_of_mem_interior ha

theorem successorsOf_of_block? {block : Block} (h : f.block? id = some block) :
    f.successorsOf id = block.successors := by
  rw [successorsOf, h]
  rfl

theorem instructionsOf_of_block? {block : Block} (h : f.block? id = some block) :
    f.instructionsOf id = block.instructions := by
  rw [instructionsOf, h]
  rfl

def Edge (f : Function) (j n : BlockId) : Prop :=
  n ∈ f.successorsOf j

def Reachable (f : Function) (j : BlockId) : Prop :=
  Relation.ReflTransGen f.Edge f.entry j

theorem edge_of_block? {block : Block} (h : f.block? id = some block) :
    f.Edge id n ↔ n ∈ block.successors := by
  rw [Edge, successorsOf_of_block? h]

theorem exists_block?_of_edge (h : f.Edge id n) :
    ∃ block, f.block? id = some block ∧ n ∈ block.successors := by
  cases hb : f.block? id with
  | none => simp [Edge, successorsOf, hb] at h
  | some block => exact ⟨block, rfl, (edge_of_block? hb).1 h⟩

theorem Linked.successors_lt (hl : f.Linked) (hn : n ∈ f.successorsOf id) :
    n < f.blocks.size := by
  unfold successorsOf at hn
  cases hb : f.block? id with
  | none => simp [hb] at hn
  | some block =>
    simp only [hb, Option.elim, Block.successors, List.mem_append, Option.mem_toList] at hn
    rcases hn with hn | hn
    · exact hl.next hb hn
    · exact hl.branch hb hn

/-- The links between blocks stay within the function. -/
structure Enclosed (f : Function) : Prop where
  entry : f.entry < f.blocks.size
  exit : f.exit < f.blocks.size
  successors : ∀ {id n}, n ∈ f.successorsOf id → n < f.blocks.size

theorem Enclosed.of_forall (hentry : f.entry < f.blocks.size) (hexit : f.exit < f.blocks.size)
    (h : ∀ id < f.blocks.size, ∀ n ∈ f.successorsOf id, n < f.blocks.size) : f.Enclosed := by
  refine ⟨hentry, hexit, fun {id n} hn => ?_⟩
  obtain ⟨block, hb, -⟩ := exists_block?_of_edge hn
  obtain ⟨hlt, -⟩ := Array.getElem?_eq_some_iff.1 hb
  exact h id hlt n hn

theorem Linked.enclosed (hl : f.Linked) : f.Enclosed :=
  ⟨hl.entry, hl.exit, hl.successors_lt⟩

theorem Enclosed.order (he : f.Enclosed) : f.order = .ok f.preorder := by
  refine if_pos ?_
  simp only [isLinked, contains, Bool.and_eq_true, decide_eq_true_eq, List.all_eq_true]
  exact ⟨⟨he.entry, he.exit⟩, fun id _ n hn => he.successors hn⟩

theorem Linked.order (hl : f.Linked) : f.order = .ok f.preorder :=
  hl.enclosed.order

theorem length_preorder_le (hexit : f.exit < f.blocks.size) :
    f.preorder.length ≤ f.blocks.size := by
  have hsubset : f.preorder ⊆ List.range f.blocks.size :=
    fun _ hn => List.mem_range.2 (lt_size_of_mem_preorder hexit hn)
  have hlength := List.Nodup.length_le_of_subset f.nodup_preorder hsubset
  rwa [List.length_range] at hlength

/-! ## Ways to the blocks of the order -/

theorem reached_of_mem_walk (h : n ∈ f.walk fresh stack) : ∃ s ∈ stack,
    Relation.ReflTransGen (fun p m => p ∈ f.walk fresh stack ∧ f.Edge p m) s n := by
  fun_induction Function.walk f fresh stack with
  | case1 => cases h
  | case2 fresh id stack hid ih =>
    have hmono : ∀ {s}, Relation.ReflTransGen
        (fun p m => p ∈ f.walk (fresh.erase id) (f.successorsOf id ++ stack) ∧ f.Edge p m) s n →
        Relation.ReflTransGen (fun p m => p ∈ id :: f.walk (fresh.erase id)
          (f.successorsOf id ++ stack) ∧ f.Edge p m) s n :=
      Relation.ReflTransGen.mono (fun _ _ hp => ⟨List.mem_cons_of_mem _ hp.1, hp.2⟩) _ _
    rcases List.mem_cons.1 h with rfl | h
    · exact ⟨n, List.mem_cons_self, .refl⟩
    · obtain ⟨s, hs, hpath⟩ := ih h
      rcases List.mem_append.1 hs with hs | hs
      · exact ⟨id, List.mem_cons_self, .head ⟨List.mem_cons_self, hs⟩ (hmono hpath)⟩
      · exact ⟨s, List.mem_cons_of_mem _ hs, hmono hpath⟩
  | case3 fresh id stack hid ih =>
    obtain ⟨s, hs, hpath⟩ := ih h
    exact ⟨s, List.mem_cons_of_mem _ hs, hpath⟩

theorem reachable_of_mem_interior (h : id ∈ f.interior) : f.Reachable id := by
  obtain ⟨s, hs, hpath⟩ := reached_of_mem_walk h
  rw [List.mem_singleton.1 hs] at hpath
  exact Relation.ReflTransGen.mono (fun _ _ hp => hp.2) _ _ hpath

theorem Enclosed.exists_edge_exit (he : f.Enclosed) (hne : f.entry ≠ f.exit)
    (hexit : f.Reachable f.exit) : ∃ p ∈ f.interior, f.Edge p f.exit := by
  have hpath : ∀ m, f.Reachable m → m ∈ f.interior ∨ ∃ p ∈ f.interior, f.Edge p f.exit := by
    intro m hm
    induction hm with
    | refl => exact .inl ((mem_preorder_of_ne hne).1 (entry_mem_preorder he.entry))
    | @tail b c _ hedge ih =>
      rcases ih with hb | hfound
      · by_cases hc : c = f.exit
        · exact .inr ⟨b, hb, hc ▸ hedge⟩
        · exact .inl ((mem_preorder_of_ne hc).1
            (mem_preorder_of_successor hb hedge (he.successors hedge)))
      · exact .inr hfound
  refine (hpath f.exit hexit).resolve_left fun hmem => ?_
  have hfresh := f.walk_subset _ _ hmem
  have hnodup : f.blocks.handles.Nodup := List.nodup_range
  exact (hnodup.mem_erase_iff.1 hfresh).1 rfl

/-- Control gets to every block of the order through blocks of the walk. -/
theorem Enclosed.reached (he : f.Enclosed) (hne : f.entry ≠ f.exit)
    (hexit : f.Reachable f.exit) (hn : n ∈ f.preorder) :
    Relation.ReflTransGen (fun p m => p ∈ f.interior ∧ f.Edge p m) f.entry n := by
  have hwalk : ∀ {m}, m ∈ f.interior →
      Relation.ReflTransGen (fun p m => p ∈ f.interior ∧ f.Edge p m) f.entry m := by
    intro m hm
    obtain ⟨s, hs, hpath⟩ := reached_of_mem_walk hm
    rw [List.mem_singleton.1 hs] at hpath
    exact hpath
  by_cases h : n = f.exit
  · obtain ⟨p, hp, hedge⟩ := he.exists_edge_exit hne hexit
    exact (hwalk hp).tail ⟨hp, h ▸ hedge⟩
  · exact hwalk ((mem_preorder_of_ne h).1 hn)

def leadingTo (f : Function) (id : BlockId) : List BlockId :=
  f.preorder.filter fun p => id ∈ f.successorsOf p

theorem mem_leadingTo : n ∈ f.leadingTo id ↔ n ∈ f.preorder ∧ id ∈ f.successorsOf n := by
  simp [leadingTo]

theorem Enclosed.predecessors (he : f.Enclosed) :
    ∃ predecessors, f.predecessors = .ok predecessors ∧
      ∀ id, (predecessors.get? id).getD [] = f.leadingTo id := by
  refine ⟨.ofList (f.blocks.handles.map f.leadingTo), ?_, ?_⟩
  · rw [Function.predecessors, he.order, bind_ok, if_pos]
    · rfl
    · rw [List.all_eq_true]
      exact fun n hn => decide_eq_true (he.successors hn)
  · intro id
    by_cases hid : id < f.blocks.size
    · simp [Arena.get?, Arena.ofList, Arena.handles, hid]
    · have hnone : f.leadingTo id = [] :=
        List.filter_eq_nil_iff.2 fun p _ hp => hid (he.successors (of_decide_eq_true hp))
      simp [Arena.get?, Arena.ofList, Arena.handles, hid, hnone]

def usedBy (f : Function) (order : List BlockId) : VariableSet :=
  .ofList ((order.flatMap f.instructionsOf).flatMap Instruction.uses)

theorem Linked.used (hl : f.Linked) : f.used = .ok (f.usedBy f.preorder) := by
  simp [Function.used, instructions, hl.order, bind, Except.bind, pure, Except.pure, usedBy]

theorem Linked.mem_preorder (hl : f.Linked) (ha : f.Agrees) {block : Block}
    (hid : id ∈ f.preorder) (hb : f.block? id = some block) (hn : n ∈ block.successors) :
    n ∈ f.preorder := by
  by_cases hexit : id = f.exit
  · rw [hexit] at hb
    rw [(ha hb).successors_exit] at hn
    cases hn
  · rw [← successorsOf_of_block? hb] at hn
    exact mem_preorder_of_successor ((mem_preorder_of_ne hexit).1 hid) hn (hl.successors_lt hn)

/-- Control stays among the blocks of the order, and reads what they read. -/
theorem Linked.confined (hl : f.Linked) (ha : f.Agrees) :
    f.Confined (· ∈ f.preorder) (f.usedBy f.preorder) := by
  constructor
  · exact entry_mem_preorder hl.entry
  · intro j block n hj hb hn
    exact hl.mem_preorder ha hj hb (by simp [Block.successors, hn])
  · intro j block i n hj hb hi hn
    exact hl.mem_preorder ha hj hb ((ha hb).mem_successors ⟨i, hi, hn⟩)
  · intro j block i v hj hb hi hv
    rw [usedBy, Std.ExtTreeSet.mem_ofList, List.contains_iff_mem]
    refine List.mem_flatMap.2 ⟨i, List.mem_flatMap.2 ⟨j, hj, ?_⟩, hv⟩
    rw [instructionsOf_of_block? hb]
    exact hi

end Cinder.Flow.Function
