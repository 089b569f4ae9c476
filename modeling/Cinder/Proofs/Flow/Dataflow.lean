import Cinder.Flow.Dataflow
import Cinder.Proofs.Flow.Walk
import Mathlib.Algebra.GroupWithZero.Nat
import Mathlib.Algebra.Order.BigOperators.Group.List
import Mathlib.Algebra.Order.Group.Nat

/-!
# Solving dataflow equations

The solver comes to an end, and the states that it ends with satisfy the equations
of the analysis.  A block that is not on the worklist needs no revision, and every
revision that changes a state makes it larger, but never larger than in another
solution.
-/

namespace Cinder.Flow

/-! ## Worklists -/

theorem mem_enqueue {worklist blocks : List BlockId} {id : BlockId} :
    id ∈ enqueue worklist blocks ↔ id ∈ worklist ∨ id ∈ blocks := by
  induction blocks generalizing worklist with
  | nil => simp [enqueue]
  | cons n blocks ih =>
    have hstep : enqueue worklist (n :: blocks) =
      enqueue (if n ∈ worklist then worklist else worklist ++ [n]) blocks := rfl
    rw [hstep, ih]
    split
    · rename_i hn
      constructor
      · rintro (h | h)
        · exact .inl h
        · exact .inr (List.mem_cons_of_mem _ h)
      · rintro (h | h)
        · exact .inl h
        · rcases List.mem_cons.1 h with rfl | h
          · exact .inl hn
          · exact .inr h
    · rw [List.mem_append, List.mem_singleton, List.mem_cons, or_assoc]

theorem length_enqueue_le (worklist blocks : List BlockId) :
    (enqueue worklist blocks).length ≤ worklist.length + blocks.length := by
  induction blocks generalizing worklist with
  | nil => simp [enqueue]
  | cons n blocks ih =>
    have hrest := ih (if n ∈ worklist then worklist else worklist ++ [n])
    have hfirst : (if n ∈ worklist then worklist else worklist ++ [n]).length ≤
        worklist.length + 1 := by
      split <;> simp
    rw [List.length_cons]
    exact Nat.le_trans hrest (by omega)

/-- States flow among the blocks of an order, and whoever takes over a state is told
when it changes. -/
structure Routes.Within (routes : Routes) (order : List BlockId) : Prop where
  dependents : ∀ {id n}, id ∈ order → n ∈ routes.dependents id → n ∈ order
  sources : ∀ {id source}, id ∈ order → source ∈ routes.sources id →
    id ∈ routes.dependents source
  length : ∀ {id}, id ∈ order → (routes.dependents id).length ≤ order.length

namespace Analysis

variable {σ : Type} (a : Analysis σ)

/-! ## Equations -/

/-- The state in which a block is entered, if the others are left in given states. -/
def enteringFrom (routes : Routes) (leaving : BlockId → σ) (id : BlockId) : σ :=
  (routes.sources id).foldl (fun state source => a.merge state (leaving source))
    (if id = routes.start then a.boundary else a.bottom)

/-- The state in which a block is left, if the others are left in given states. -/
def leavingFrom (f : Function) (routes : Routes) (leaving : BlockId → σ) (id : BlockId) : σ :=
  a.transferAll (f.instructionsOf id) (a.enteringFrom routes leaving id)

def leavingState (f : Function) (routes : Routes) (leaving : Arena σ) (id : BlockId) : σ :=
  a.transferAll (f.instructionsOf id) (a.enteringState routes leaving id)

/-- States that the blocks of an order never leave behind: once they are left in no more
than these, none of them is left in more. -/
def Closed (f : Function) (le : σ → σ → Prop) (routes : Routes) (order : List BlockId)
    (bound : BlockId → σ) : Prop :=
  ∀ id ∈ order, le (a.leavingFrom f routes bound id) (bound id)

/-- The states of a block satisfy their equations. -/
structure Settled (f : Function) (routes : Routes) (solution : Solution σ) (id : BlockId) :
    Prop where
  entering : solution.entering.get? id = some (a.enteringState routes solution.leaving id)
  leaving : a.stateAt solution.leaving id = a.leavingState f routes solution.leaving id

theorem get?_eq_stateAt {states : Arena σ} {id : BlockId} (h : id < states.size) :
    states.get? id = some (a.stateAt states id) := by
  unfold stateAt
  cases hget : states.get? id with
  | some s => rfl
  | none => exact absurd ((Arena.get?_eq_none_iff ..).1 hget) (Nat.not_le.2 h)

theorem stateAt_set {states : Arena σ} {id : BlockId} (h : id < states.size) (s : σ)
    (j : BlockId) : a.stateAt (states.set id s) j = if j = id then s else a.stateAt states j := by
  unfold stateAt
  rw [Arena.get?_set]
  by_cases hj : j = id
  · rw [if_pos hj.symm, if_pos h, if_pos hj, Option.getD_some]
  · rw [if_neg (Ne.symm hj), if_neg hj]

theorem foldl_merge_congr {leaving leaving' : Arena σ} {sources : List BlockId} (s : σ)
    (h : ∀ source ∈ sources, a.stateAt leaving' source = a.stateAt leaving source) :
    sources.foldl (fun state source => a.merge state (a.stateAt leaving' source)) s =
      sources.foldl (fun state source => a.merge state (a.stateAt leaving source)) s := by
  induction sources generalizing s with
  | nil => rfl
  | cons source rest ih =>
    rw [List.foldl_cons, List.foldl_cons, h source List.mem_cons_self]
    exact ih _ fun j hj => h j (List.mem_cons_of_mem _ hj)

/-- A block takes no notice of a change in a block that it does not depend on. -/
theorem enteringState_set {routes : Routes} {leaving : Arena σ} {id j : BlockId} (s : σ)
    (hsize : id < leaving.size) (hsources : id ∉ routes.sources j) :
    a.enteringState routes (leaving.set id s) j = a.enteringState routes leaving j := by
  refine a.foldl_merge_congr _ fun source hsource => ?_
  rw [stateAt_set a hsize, if_neg]
  rintro rfl
  exact hsources hsource

/-! ## Growth of states -/

/-- The states of an analysis grow.  A state can grow no more often than its gap
says, which at first is the height of the analysis. -/
structure Grows (f : Function) (valid : σ → Prop) (le : σ → σ → Prop) (gap : σ → Nat) :
    Prop where
  refl : ∀ s, le s s
  trans : ∀ {s t u}, le s t → le t u → le s u
  valid_bottom : valid a.bottom
  valid_boundary : valid a.boundary
  valid_merge : ∀ {s t}, valid s → valid t → valid (a.merge s t)
  valid_transferAll : ∀ {s} (id : BlockId), valid s →
    valid (a.transferAll (f.instructionsOf id) s)
  bottom_le : ∀ s, le a.bottom s
  merge_mono : ∀ {s s' t t'}, le s s' → le t t' → le (a.merge s t) (a.merge s' t')
  transferAll_mono : ∀ {s t} (id : BlockId), le s t →
    le (a.transferAll (f.instructionsOf id) s) (a.transferAll (f.instructionsOf id) t)
  gap_lt : ∀ {s t}, valid s → valid t → le s t → s ≠ t → gap t < gap s
  gap_bottom : gap a.bottom ≤ a.height

namespace Grows

variable {a} {f : Function} {valid : σ → Prop} {le : σ → σ → Prop} {gap : σ → Nat}
variable {leaving : Arena σ} {bound bound' : BlockId → σ}

section

variable (h : a.Grows f valid le gap)

include h

theorem le_foldl_merge {sources : List BlockId}
    (hle : ∀ source ∈ sources, le (bound source) (bound' source)) {s t : σ} (hst : le s t) :
    le (sources.foldl (fun state source => a.merge state (bound source)) s)
      (sources.foldl (fun state source => a.merge state (bound' source)) t) := by
  induction sources generalizing s t with
  | nil => exact hst
  | cons source rest ih =>
    apply ih
    · exact fun id hid => hle id (List.mem_cons_of_mem _ hid)
    · exact h.merge_mono hst (hle source List.mem_cons_self)

theorem enteringFrom_mono {routes : Routes} {id : BlockId}
    (hle : ∀ source ∈ routes.sources id, le (bound source) (bound' source)) :
    le (a.enteringFrom routes bound id) (a.enteringFrom routes bound' id) :=
  h.le_foldl_merge hle (h.refl _)

theorem leavingFrom_mono (hle : ∀ id, le (bound id) (bound' id)) (routes : Routes) (id : BlockId) :
    le (a.leavingFrom f routes bound id) (a.leavingFrom f routes bound' id) :=
  h.transferAll_mono id (h.enteringFrom_mono fun source _ => hle source)

section

variable (hvalid : ∀ id, valid (a.stateAt leaving id))

include hvalid

theorem valid_foldl_merge {s : σ} (hs : valid s) (sources : List BlockId) :
    valid (sources.foldl (fun state source => a.merge state (a.stateAt leaving source)) s) := by
  induction sources generalizing s with
  | nil => exact hs
  | cons source rest ih => exact ih (h.valid_merge hs (hvalid source))

theorem valid_enteringState (routes : Routes) (id : BlockId) :
    valid (a.enteringState routes leaving id) := by
  refine h.valid_foldl_merge hvalid ?_ _
  split
  · exact h.valid_boundary
  · exact h.valid_bottom

theorem valid_leavingState (routes : Routes) (id : BlockId) :
    valid (a.leavingState f routes leaving id) :=
  h.valid_transferAll id (h.valid_enteringState hvalid routes id)

end

end

end Grows

/-! ## Revisions -/

structure Revised (f : Function) (valid : σ → Prop) (le : σ → σ → Prop) (routes : Routes)
    (order worklist : List BlockId) (solution : Solution σ) : Prop where
  entering_size : solution.entering.size = f.blocks.size
  leaving_size : solution.leaving.size = f.blocks.size
  pending : worklist ⊆ order
  valid_leaving : ∀ id, valid (a.stateAt solution.leaving id)
  rising : ∀ id, le (a.stateAt solution.leaving id) (a.leavingState f routes solution.leaving id)
  settled : ∀ id ∈ order, id ∉ worklist → a.Settled f routes solution id
  outside : ∀ id ∉ order, a.stateAt solution.leaving id = a.bottom
  unentered : ∀ id ∉ order, a.stateAt solution.entering id = a.bottom
  least : ∀ {bound}, a.Closed f le routes order bound →
    ∀ id, le (a.stateAt solution.leaving id) (bound id)

/-- How often the states of some blocks can still grow. -/
def gaps (gap : σ → Nat) (order : List BlockId) (leaving : Arena σ) : Nat :=
  (order.map fun id => gap (a.stateAt leaving id)).sum

section Revisions

variable {a} {f : Function} {valid : σ → Prop} {le : σ → σ → Prop} {gap : σ → Nat}
variable {routes : Routes} {order worklist : List BlockId} {solution : Solution σ} {id : BlockId}

theorem gaps_set_lt {leaving : Arena σ} {s : σ} (hid : id ∈ order) (hsize : id < leaving.size)
    (hgap : gap s < gap (a.stateAt leaving id)) :
    a.gaps gap order (leaving.set id s) < a.gaps gap order leaving := by
  refine List.sum_lt_sum _ _ (fun j _ => ?_) ⟨id, hid, ?_⟩
  · rw [stateAt_set a hsize]
    split
    · rename_i hj
      rw [hj]
      exact Nat.le_of_lt hgap
    · exact Nat.le_refl _
  · rw [stateAt_set a hsize, if_pos rfl]
    exact hgap

theorem gaps_le {leaving : Arena σ} {bound : Nat}
    (h : ∀ id ∈ order, gap (a.stateAt leaving id) ≤ bound) :
    a.gaps gap order leaving ≤ order.length * bound := by
  have hsum := List.sum_le_card_nsmul (order.map fun id => gap (a.stateAt leaving id)) bound
    fun n hn => by
      obtain ⟨id, hid, rfl⟩ := List.mem_map.1 hn
      exact h id hid
  rw [List.length_map] at hsum
  exact hsum

theorem Revised.ne {j : BlockId} (h : a.Revised f valid le routes order (id :: worklist) solution)
    (hj : j ∉ order) : j ≠ id := by
  rintro rfl
  exact hj (h.pending List.mem_cons_self)

theorem Revised.keep (h : a.Revised f valid le routes order (id :: worklist) solution)
    (hsize : id < f.blocks.size)
    (hsame : a.leavingState f routes solution.leaving id = a.stateAt solution.leaving id) :
    a.Revised f valid le routes order worklist
      { solution with
        entering := solution.entering.set id
          (a.enteringState routes solution.leaving id) } where
  entering_size := by
    rw [Arena.size_set]
    exact h.entering_size
  leaving_size := h.leaving_size
  pending := (List.cons_subset.1 h.pending).2
  valid_leaving := h.valid_leaving
  rising := h.rising
  outside := h.outside
  least := h.least
  unentered := by
    intro j hj
    rw [stateAt_set a (h.entering_size.symm ▸ hsize), if_neg (h.ne hj), h.unentered j hj]
  settled := by
    intro j hj hworklist
    by_cases hjid : j = id
    · subst hjid
      refine ⟨?_, hsame.symm⟩
      rw [Arena.get?_set, if_pos rfl, if_pos (h.entering_size.symm ▸ hsize)]
    · have hold := h.settled j hj (List.not_mem_cons_of_ne_of_not_mem hjid hworklist)
      refine ⟨?_, hold.leaving⟩
      rw [Arena.get?_set, if_neg (Ne.symm hjid)]
      exact hold.entering

/-- A block whose state changes puts those that depend on it on the worklist. -/
theorem Revised.change (hgrows : a.Grows f valid le gap) (hwithin : routes.Within order)
    (h : a.Revised f valid le routes order (id :: worklist) solution)
    (hsize : id < f.blocks.size) :
    a.Revised f valid le routes order (enqueue worklist (routes.dependents id))
      ⟨solution.entering.set id (a.enteringState routes solution.leaving id),
        solution.leaving.set id (a.leavingState f routes solution.leaving id)⟩ := by
  have hsize' : id < solution.leaving.size := h.leaving_size.symm ▸ hsize
  have hset := a.stateAt_set hsize' (a.leavingState f routes solution.leaving id)
  have hle : ∀ j, le (a.stateAt solution.leaving j)
      (a.stateAt (solution.leaving.set id (a.leavingState f routes solution.leaving id)) j) := by
    intro j
    rw [hset]
    split
    · rename_i hj
      rw [hj]
      exact h.rising id
    · exact hgrows.refl _
  constructor
  · rw [Arena.size_set]
    exact h.entering_size
  · rw [Arena.size_set]
    exact h.leaving_size
  · intro j hj
    rcases mem_enqueue.1 hj with hj | hj
    · exact h.pending (List.mem_cons_of_mem _ hj)
    · exact hwithin.dependents (h.pending List.mem_cons_self) hj
  · intro j
    rw [hset]
    split
    · exact hgrows.valid_leavingState h.valid_leaving routes id
    · exact h.valid_leaving j
  · intro j
    have hmono := hgrows.leavingFrom_mono hle routes j
    rw [hset]
    split
    · rename_i hj
      rw [hj] at hmono ⊢
      exact hmono
    · exact hgrows.trans (h.rising j) hmono
  · intro j hj hworklist
    obtain ⟨hpending, hdependents⟩ := not_or.1 (mt mem_enqueue.2 hworklist)
    have hentering := a.enteringState_set (a.leavingState f routes solution.leaving id) hsize'
      (mt (hwithin.sources hj) hdependents)
    by_cases hjid : j = id
    · subst hjid
      refine ⟨?_, ?_⟩
      · rw [Arena.get?_set, if_pos rfl, if_pos (h.entering_size.symm ▸ hsize), hentering]
      · rw [hset, if_pos rfl]
        exact congrArg (a.transferAll _) hentering.symm
    · have hold := h.settled j hj (List.not_mem_cons_of_ne_of_not_mem hjid hpending)
      refine ⟨?_, ?_⟩
      · rw [Arena.get?_set, if_neg (Ne.symm hjid), hentering]
        exact hold.entering
      · rw [hset, if_neg hjid]
        exact hold.leaving.trans (congrArg (a.transferAll _) hentering.symm)
  · intro j hj
    rw [hset, if_neg (h.ne hj), h.outside j hj]
  · intro j hj
    rw [stateAt_set a (h.entering_size.symm ▸ hsize), if_neg (h.ne hj), h.unentered j hj]
  · intro bound hclosed j
    rw [hset]
    split
    · rename_i hj
      rw [hj]
      exact hgrows.trans (hgrows.leavingFrom_mono (h.least hclosed) routes id)
        (hclosed id (h.pending List.mem_cons_self))
    · exact h.least hclosed j

/-- With enough fuel the solver comes to an end, where all blocks are settled.  A
revision takes a block from the worklist; if it adds others, a gap has shrunk. -/
theorem exists_iterate [DecidableEq σ] (hgrows : a.Grows f valid le gap)
    (hwithin : routes.Within order) (hsize : ∀ id ∈ order, id < f.blocks.size) {fuel : Nat}
    (h : a.Revised f valid le routes order worklist solution)
    (hfuel : worklist.length + a.gaps gap order solution.leaving * (order.length + 1) ≤ fuel) :
    ∃ solution', a.iterate f routes fuel worklist solution = .ok solution' ∧
      a.Revised f valid le routes order [] solution' := by
  induction fuel generalizing worklist solution with
  | zero =>
    cases worklist with
    | nil => exact ⟨solution, rfl, h⟩
    | cons id worklist => simp at hfuel
  | succ fuel ih =>
    cases worklist with
    | nil => exact ⟨solution, rfl, h⟩
    | cons id worklist =>
      have hid : id ∈ order := h.pending List.mem_cons_self
      have hlt := hsize id hid
      rw [List.length_cons] at hfuel
      rw [iterate]
      change ∃ solution', (if a.leavingState f routes solution.leaving id = _ then _ else _) =
        Except.ok solution' ∧ _
      by_cases hsame : a.leavingState f routes solution.leaving id =
          a.stateAt solution.leaving id
      · rw [if_pos hsame]
        have hless : worklist.length +
            a.gaps gap order solution.leaving * (order.length + 1) ≤ fuel := by
          omega
        exact ih (h.keep hlt hsame) hless
      · rw [if_neg hsame, if_pos]
        · refine ih (h.change hgrows hwithin hlt) ?_
          have hgap : a.gaps gap order (solution.leaving.set id
              (a.leavingState f routes solution.leaving id)) + 1 ≤
              a.gaps gap order solution.leaving :=
            gaps_set_lt hid (h.leaving_size.symm ▸ hlt)
              (hgrows.gap_lt (h.valid_leaving id)
                (hgrows.valid_leavingState h.valid_leaving routes id) (h.rising id)
                (Ne.symm hsame))
          have hscaled := Nat.mul_le_mul_right (order.length + 1) hgap
          rw [Nat.succ_mul] at hscaled
          have hadded := length_enqueue_le worklist (routes.dependents id)
          have hfew := hwithin.length hid
          change _ + a.gaps gap order (solution.leaving.set id
            (a.leavingState f routes solution.leaving id)) * (order.length + 1) ≤ fuel
          omega
        · rw [List.all_eq_true]
          intro n hn
          exact decide_eq_true (hsize n (hwithin.dependents hid hn))

/-- Where nothing is left to revise, the states satisfy the equations. -/
theorem Revised.equations (h : a.Revised f valid le routes order [] solution) :
    ∀ id ∈ order, a.stateAt solution.entering id =
        a.enteringFrom routes (a.stateAt solution.leaving) id ∧
      a.stateAt solution.leaving id =
        a.transferAll (f.instructionsOf id) (a.stateAt solution.entering id) := by
  intro id hid
  have hsettled := h.settled id hid List.not_mem_nil
  have hentering : a.stateAt solution.entering id = a.enteringState routes solution.leaving id := by
    rw [stateAt, hsettled.entering, Option.getD_some]
  refine ⟨hentering, ?_⟩
  rw [hsettled.leaving, leavingState, hentering]

theorem stateAt_initial (id : BlockId) :
    a.stateAt (f.blocks.map fun _ => a.bottom) id = a.bottom := by
  simp only [stateAt, Arena.get?, Arena.map, Arena.ofList, List.getElem?_toArray,
    List.getElem?_map]
  cases f.blocks.toList[id]? <;> rfl

theorem size_initial : (f.blocks.map fun _ => a.bottom).size = f.blocks.size := by
  simp [Arena.size, Arena.map, Arena.ofList, Arena.toList]

theorem exists_iterate_initial [DecidableEq σ] (hgrows : a.Grows f valid le gap)
    (he : f.Enclosed) (hwithin : routes.Within f.preorder) (hperm : worklist.Perm f.preorder) :
    ∃ solution, a.iterate f routes (a.revisions f) worklist
        ⟨f.blocks.map fun _ => a.bottom, f.blocks.map fun _ => a.bottom⟩ = .ok solution ∧
      a.Revised f valid le routes f.preorder [] solution := by
  apply exists_iterate hgrows hwithin fun id => Function.lt_size_of_mem_preorder he.exit
  · constructor
    · exact size_initial
    · exact size_initial
    · exact hperm.subset
    · intro id
      rw [stateAt_initial]
      exact hgrows.valid_bottom
    · intro id
      rw [stateAt_initial]
      exact hgrows.bottom_le _
    · intro id hid hpending
      exact absurd (hperm.mem_iff.2 hid) hpending
    · exact fun id _ => stateAt_initial id
    · exact fun id _ => stateAt_initial id
    · intro bound _ id
      rw [stateAt_initial]
      exact hgrows.bottom_le _
  · have hblocks := Function.length_preorder_le he.exit
    have hgaps : a.gaps gap f.preorder (f.blocks.map fun _ => a.bottom) ≤
        f.blocks.size * a.height :=
      (gaps_le fun id _ => (stateAt_initial (a := a) (f := f) id).symm ▸ hgrows.gap_bottom).trans
        (Nat.mul_le_mul_right _ hblocks)
    rw [hperm.length_eq]
    exact Nat.add_le_add hblocks (Nat.mul_le_mul hgaps (by omega))

section

variable (he : f.Enclosed) (h : a.Revised f valid le routes f.preorder worklist solution)

include he h

theorem Revised.get?_entering :
    ∀ id ∈ f.preorder, solution.entering.get? id = some (a.stateAt solution.entering id) :=
  fun _ hid => a.get?_eq_stateAt (h.entering_size ▸ Function.lt_size_of_mem_preorder he.exit hid)

theorem Revised.get?_leaving :
    ∀ id ∈ f.preorder, solution.leaving.get? id = some (a.stateAt solution.leaving id) :=
  fun _ hid => a.get?_eq_stateAt (h.leaving_size ▸ Function.lt_size_of_mem_preorder he.exit hid)

end

end Revisions

/-! ## Solving -/

section Solving

variable {a} {f : Function} {valid : σ → Prop} {le : σ → σ → Prop} {gap : σ → Nat}

theorem within_forward (he : f.Enclosed) (hexit : f.successorsOf f.exit = []) :
    Routes.Within ⟨f.entry, f.leadingTo, f.successorsOf⟩ f.preorder := by
  -- only blocks in front of the exit have blocks behind them
  have hinterior : ∀ {id n}, id ∈ f.preorder → n ∈ f.successorsOf id → id ∈ f.interior := by
    intro id n hid hn
    apply (Function.mem_preorder_of_ne _).1 hid
    rintro rfl
    rw [hexit] at hn
    cases hn
  constructor
  · intro id n hid hn
    exact Function.mem_preorder_of_successor (hinterior hid hn) hn (he.successors hn)
  · intro id source _ hsource
    exact (Function.mem_leadingTo.1 hsource).2
  · intro id hid
    show (f.successorsOf id).length ≤ f.preorder.length
    have htwo := f.length_successorsOf_le id
    cases hsuccessors : f.successorsOf id with
    | nil => exact Nat.zero_le _
    | cons n rest =>
      have hpos := List.length_pos_of_mem (hinterior hid (hsuccessors ▸ List.mem_cons_self))
      rw [hsuccessors] at htwo
      rw [Function.preorder, List.length_append, List.length_singleton]
      omega

theorem within_backward (f : Function) :
    Routes.Within ⟨f.exit, f.successorsOf, f.leadingTo⟩ f.preorder := by
  constructor
  · intro id n _ hn
    exact (Function.mem_leadingTo.1 hn).1
  · intro id source hid hsource
    exact Function.mem_leadingTo.2 ⟨hid, hsource⟩
  · intro id _
    exact List.length_filter_le _ _

variable [DecidableEq σ] (hgrows : a.Grows f valid le gap) (he : f.Enclosed)

include hgrows he

/-- A forward analysis whose states grow has a solution, where nothing is left to revise. -/
theorem exists_solve_forward (hexit : f.successorsOf f.exit = [])
    (hdirection : a.direction = .forward) :
    ∃ solution, a.solve f = .ok ⟨solution.entering, solution.leaving⟩ ∧
      a.Revised f valid le ⟨f.entry, f.leadingTo, f.successorsOf⟩ f.preorder [] solution := by
  obtain ⟨predecessors, hpredecessors, hget⟩ := he.predecessors
  have hroutes : a.routes f predecessors = ⟨f.entry, f.leadingTo, f.successorsOf⟩ := by
    rw [routes, hdirection, ← funext hget]
  obtain ⟨solution, hsolution, hdone⟩ := exists_iterate_initial hgrows he
    (within_forward he hexit) (List.Perm.refl f.preorder)
  refine ⟨solution, ?_, hdone⟩
  rw [solve, he.order, bind_ok, hpredecessors, bind_ok, hdirection]
  dsimp only
  rw [hroutes, hsolution]
  rfl

/-- A backward analysis whose states grow has a solution, where nothing is left to revise. -/
theorem exists_solve_backward (hdirection : a.direction = .backward) :
    ∃ solution, a.solve f = .ok ⟨solution.leaving, solution.entering⟩ ∧
      a.Revised f valid le ⟨f.exit, f.successorsOf, f.leadingTo⟩ f.preorder [] solution := by
  obtain ⟨predecessors, hpredecessors, hget⟩ := he.predecessors
  have hroutes : a.routes f predecessors = ⟨f.exit, f.successorsOf, f.leadingTo⟩ := by
    rw [routes, hdirection, ← funext hget]
  obtain ⟨solution, hsolution, hdone⟩ := exists_iterate_initial hgrows he
    (within_backward f) f.preorder.reverse_perm
  refine ⟨solution, ?_, hdone⟩
  rw [solve, he.order, bind_ok, hpredecessors, bind_ok, hdirection]
  dsimp only
  rw [hroutes, hsolution]
  rfl

end Solving

end Analysis

end Cinder.Flow
