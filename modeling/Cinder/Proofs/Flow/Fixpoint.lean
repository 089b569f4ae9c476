import Cinder.Proofs.Flow.Dataflow
import Mathlib.Data.Fintype.Order
import Mathlib.Order.CompletePartialOrder
import Mathlib.Order.KrullDimension

/-!
# Least solutions of dataflow equations

Over a join-semilattice of finite height with monotone effects, the solver ends with
the least solution of the equations of an analysis: the state where a block is entered
joins the states in which its neighbours are left, and the state where it is left is
the effect of its instructions on that.
-/

namespace Cinder.Flow.Analysis

variable {σ : Type}

/-! ## Lawful analyses -/

/-- The states of an analysis form a join-semilattice of finite height, and instructions
have monotone effects on them. -/
structure Lawful [SemilatticeSup σ] [OrderBot σ] (a : Analysis σ) : Prop where
  bottom : a.bottom = ⊥
  merge : ∀ s t, a.merge s t = s ⊔ t
  transfer : ∀ i, Monotone (a.transfer i)
  height : ∀ chain : LTSeries σ, chain.length ≤ a.height

section Lawful

variable [SemilatticeSup σ] [OrderBot σ] {a : Analysis σ}

theorem Lawful.monotone_transferAll (ha : a.Lawful) (l : List Instruction) :
    Monotone (a.transferAll l) := by
  unfold transferAll
  cases a.direction with
  | forward =>
    induction l with
    | nil => exact monotone_id
    | cons i rest ih => exact ih.comp (ha.transfer i)
  | backward =>
    induction l with
    | nil => exact monotone_id
    | cons i rest ih => exact (ha.transfer i).comp ih

theorem Lawful.coheight_le (ha : a.Lawful) (s : σ) : Order.coheight s ≤ a.height := by
  apply Order.coheight_le
  intro chain _
  exact_mod_cast ha.height chain

theorem Lawful.grows (ha : a.Lawful) (f : Function) :
    a.Grows f (fun _ => True) (· ≤ ·) (fun s => (Order.coheight s).toNat) where
  refl := le_refl
  trans := le_trans
  valid_bottom := trivial
  valid_boundary := trivial
  valid_merge _ _ := trivial
  valid_transferAll _ _ := trivial
  bottom_le s := by
    rw [ha.bottom]
    exact bot_le
  merge_mono hs ht := by
    rw [ha.merge, ha.merge]
    exact sup_le_sup hs ht
  transferAll_mono id hle := ha.monotone_transferAll _ hle
  gap_lt {s t} _ _ hle hne := by
    have hfinite : ∀ s : σ, Order.coheight s < ⊤ := fun s =>
      (ha.coheight_le s).trans_lt (ENat.natCast_lt_top _)
    have hlt := Order.coheight_strictAnti (lt_of_le_of_ne hle hne) (hfinite t)
    rw [← ENat.natCast_toNat (hfinite s).ne, ← ENat.natCast_toNat (hfinite t).ne] at hlt
    exact_mod_cast hlt
  gap_bottom := ENat.toNat_le_of_le_natCast (ha.coheight_le _)

end Lawful

/-! ## Equations -/

section Equations

variable [SemilatticeSup σ] (a : Analysis σ) (f : Function)

/-- The equations between the states in which the blocks of the order are entered and
left: a block is entered in the join of the states in which its neighbours are left. -/
structure Equations (start : BlockId) (neighbours : BlockId → Set BlockId)
    (entering leaving : BlockId → σ) : Prop where
  joined : ∀ id ∈ f.preorder, IsLUB (insert (if id = start then a.boundary else a.bottom)
    (leaving '' neighbours id)) (entering id)
  transferred : ∀ id ∈ f.preorder,
    leaving id = a.transferAll (f.instructionsOf id) (entering id)

def Solves (inputs outputs : BlockId → σ) : Prop :=
  match a.direction with
  | .forward => a.Equations f f.entry (fun id => {p | p ∈ f.preorder ∧ f.Edge p id}) inputs outputs
  | .backward => a.Equations f f.exit (fun id => {n | f.Edge id n}) outputs inputs

variable {a f} {inputs outputs : BlockId → σ}

theorem setOf_mem_leadingTo (id : BlockId) :
    {p | p ∈ f.leadingTo id} = {p | p ∈ f.preorder ∧ f.Edge p id} :=
  Set.ext fun _ => Function.mem_leadingTo

theorem solves_forward (hdirection : a.direction = .forward) :
    a.Solves f inputs outputs ↔
      a.Equations f f.entry (fun id => {p | p ∈ f.leadingTo id}) inputs outputs := by
  simp only [Solves, hdirection, setOf_mem_leadingTo]

theorem solves_backward (hdirection : a.direction = .backward) :
    a.Solves f inputs outputs ↔
      a.Equations f f.exit (fun id => {n | n ∈ f.successorsOf id}) outputs inputs := by
  simp only [Solves, hdirection, Function.Edge]

end Equations

section Joins

variable [SemilatticeSup σ] {ι : Type}

theorem foldl_sup_le_iff {states : ι → σ} {l : List ι} {s u : σ} :
    l.foldl (fun state x => state ⊔ states x) s ≤ u ↔ s ≤ u ∧ ∀ x ∈ l, states x ≤ u := by
  induction l generalizing s with
  | nil => simp
  | cons x l ih => simp [ih, and_assoc]

theorem isLUB_foldl_sup (states : ι → σ) (l : List ι) (s : σ) :
    IsLUB (insert s (states '' {x | x ∈ l})) (l.foldl (fun state x => state ⊔ states x) s) := by
  rw [isLUB_iff_le_iff]
  intro u
  rw [foldl_sup_le_iff, mem_upperBounds, Set.forall_mem_insert, Set.forall_mem_image]
  rfl

end Joins

/-! ## Least solutions -/

section Least

variable [SemilatticeSup σ] [OrderBot σ] {a : Analysis σ} {f : Function} {routes : Routes}
variable {entering leaving entering' leaving' : BlockId → σ}

theorem Lawful.isLUB_enteringFrom (ha : a.Lawful) (routes : Routes) (leaving : BlockId → σ)
    (id : BlockId) : IsLUB (insert (if id = routes.start then a.boundary else a.bottom)
      (leaving '' {n | n ∈ routes.sources id})) (a.enteringFrom routes leaving id) := by
  have hmerge : a.merge = (· ⊔ ·) := by
    funext s t
    exact ha.merge s t
  rw [enteringFrom, hmerge]
  exact isLUB_foldl_sup leaving _ _

/-- The equations say that a block is entered in what merging gives. -/
theorem Lawful.equations_iff (ha : a.Lawful) (routes : Routes) :
    a.Equations f routes.start (fun id => {n | n ∈ routes.sources id}) entering leaving ↔
      ∀ id ∈ f.preorder, entering id = a.enteringFrom routes leaving id ∧
        leaving id = a.transferAll (f.instructionsOf id) (entering id) := by
  constructor
  · intro h id hid
    exact ⟨(h.joined id hid).unique (ha.isLUB_enteringFrom routes leaving id),
      h.transferred id hid⟩
  · intro h
    constructor
    · intro id hid
      rw [(h id hid).1]
      exact ha.isLUB_enteringFrom routes leaving id
    · intro id hid
      exact (h id hid).2

/-- A solution that is closed under revisions is below another one if it is below it where
blocks are left. -/
theorem Lawful.le_of_equations (ha : a.Lawful)
    (hleast : ∀ {bound}, a.Closed f (· ≤ ·) routes f.preorder bound → ∀ id, leaving id ≤ bound id)
    (h : a.Equations f routes.start (fun id => {n | n ∈ routes.sources id}) entering leaving)
    (h' : a.Equations f routes.start (fun id => {n | n ∈ routes.sources id}) entering' leaving') :
    ∀ id ∈ f.preorder, entering id ≤ entering' id ∧ leaving id ≤ leaving' id := by
  rw [ha.equations_iff routes] at h h'
  have hclosed : a.Closed f (· ≤ ·) routes f.preorder leaving' := by
    intro id hid
    rw [leavingFrom, ← (h' id hid).1, ← (h' id hid).2]
  have hle := hleast hclosed
  intro id hid
  refine ⟨?_, hle id⟩
  calc entering id = a.enteringFrom routes leaving id := (h id hid).1
    _ ≤ a.enteringFrom routes leaving' id :=
      (ha.grows f).enteringFrom_mono fun source _ => hle source
    _ = entering' id := (h' id hid).1.symm

/-- The states of an analysis before and after the blocks of the order are the least
solution of its equations. -/
structure Least (a : Analysis σ) (f : Function) (states : BlockStates σ) : Prop where
  inputs : ∀ id ∈ f.preorder, states.inputs.get? id = some (a.stateAt states.inputs id)
  outputs : ∀ id ∈ f.preorder, states.outputs.get? id = some (a.stateAt states.outputs id)
  solves : a.Solves f (a.stateAt states.inputs) (a.stateAt states.outputs)
  least : ∀ {inputs outputs}, a.Solves f inputs outputs → ∀ id ∈ f.preorder,
    a.stateAt states.inputs id ≤ inputs id ∧ a.stateAt states.outputs id ≤ outputs id

section

variable [DecidableEq σ] (ha : a.Lawful) (he : f.Enclosed)

include ha he

theorem Lawful.exists_least_forward (hexit : f.successorsOf f.exit = [])
    (hdirection : a.direction = .forward) :
    ∃ states, a.solve f = .ok states ∧ a.Least f states := by
  obtain ⟨solution, hsolve, h⟩ := exists_solve_forward (ha.grows f) he hexit hdirection
  have hequations := (ha.equations_iff ⟨f.entry, f.leadingTo, f.successorsOf⟩).2 h.equations
  refine ⟨_, hsolve, h.get?_entering he, h.get?_leaving he,
    (solves_forward hdirection).2 hequations, ?_⟩
  intro inputs outputs hsolves
  exact ha.le_of_equations h.least hequations ((solves_forward hdirection).1 hsolves)

theorem Lawful.exists_least_backward (hdirection : a.direction = .backward) :
    ∃ states, a.solve f = .ok states ∧ a.Least f states := by
  obtain ⟨solution, hsolve, h⟩ := exists_solve_backward (ha.grows f) he hdirection
  have hequations := (ha.equations_iff ⟨f.exit, f.successorsOf, f.leadingTo⟩).2 h.equations
  refine ⟨_, hsolve, h.get?_leaving he, h.get?_entering he,
    (solves_backward hdirection).2 hequations, ?_⟩
  intro inputs outputs hsolves id hid
  exact (ha.le_of_equations h.least hequations ((solves_backward hdirection).1 hsolves) id
    hid).symm

end

/-- The solver ends, on every function whose links stay within it and end at the exit, with
the least solution of the equations of an analysis. -/
theorem exists_least_solution [DecidableEq σ] (ha : a.Lawful) (he : f.Enclosed)
    (hexit : f.successorsOf f.exit = []) :
    f.order = .ok f.preorder ∧ ∃ states, a.solve f = .ok states ∧ a.Least f states := by
  refine ⟨he.order, ?_⟩
  cases hdirection : a.direction with
  | forward => exact ha.exists_least_forward he hexit hdirection
  | backward => exact ha.exists_least_backward he hdirection

end Least

def branched : Analysis Bool where
  direction := .forward
  bottom := false
  boundary := false
  merge := (· || ·)
  transfer i passed := passed || i.isBranch
  height := 1

/-- A loop whose head is entered from the entry and from its body. -/
def loop : Function where
  symbol := 0
  name := "loop"
  returnType := none
  entry := 0
  exit := 1
  blocks := .ofList [
    ⟨[.label 0], some 2, none⟩,
    ⟨[.label 1, .ret none], none, none⟩,
    ⟨[.label 2, .branch (.constant (.bool true)) 1], some 3, some 1⟩,
    ⟨[.label 3, .goto 2], some 2, none⟩]

theorem lawful_branched : branched.Lawful where
  bottom := rfl
  merge _ _ := rfl
  transfer i _ _ hle := sup_le_sup_right hle i.isBranch
  height chain := Nat.lt_succ_iff.1 (chain.length_lt_card.trans_eq Fintype.card_bool)

theorem enclosed_loop : loop.Enclosed :=
  .of_forall (by decide) (by decide) (by decide)

/-- What the body of the loop is left in comes back to its head. -/
theorem exists_least_solution_loop :
    loop.Enclosed ∧ loop.successorsOf loop.exit = [] ∧
      ∃ states, branched.solve loop = .ok states ∧ branched.Least loop states ∧
        states.inputs.get? 2 = some true := by
  have hstates : (branched.solve loop).toOption.bind (fun states => states.inputs.get? 2) =
      some true := by
    decide +kernel
  obtain ⟨-, states, hsolve, hleast⟩ := exists_least_solution lawful_branched enclosed_loop rfl
  rw [hsolve] at hstates
  exact ⟨enclosed_loop, rfl, states, hsolve, hleast, hstates⟩

end Cinder.Flow.Analysis
