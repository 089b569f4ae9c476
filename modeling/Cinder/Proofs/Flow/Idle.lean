import Cinder.Proofs.Flow.Optimizer
import Cinder.Proofs.Flow.Rounds

/-!
# Rounds that change nothing

The optimizer stops after a round in which no pass reports a change.  Such a round
leaves the module as it is, and every pass has then been found to have nothing to do
on any block.
-/

namespace Cinder.Flow

variable {table : SymbolTable} {used : VariableSet}

def Pass.Idle (table : SymbolTable) (used : VariableSet) (f : Function) (block : Block) :
    Pass → Prop
  | folding => block.fold = block
  | propagation => block.propagate table = block
  | deadCode => block.prune table used = block
  | branches => decideBranch block.instructions = none ∧
      ∀ n ∈ block.successors, f.destination? n = .ok none

theorem Block.Agrees.prune_eq_self {exit id : BlockId} {block : Block} (h : block.Agrees exit id)
    (hlength : (block.prune table used).instructions.length = block.instructions.length) :
    block.prune table used = block := by
  rw [h.prune_eq] at hlength ⊢
  have hfilter := (List.filter_sublist (p := Block.keeps table used)).eq_of_length hlength
  rw [hfilter]

namespace Function

variable {f g : Function} {id : BlockId}

/-! ## One visit -/

variable {changed : Bool}

theorem threadTo_idle {n : BlockId} (h : threadTo id (f, changed) n = .ok (g, false)) :
    changed = false ∧ g = f ∧ f.destination? n = .ok none := by
  obtain ⟨result, hresult, h⟩ := bind_eq_ok.1 h
  cases result with
  | some target => cases h
  | none =>
    cases h
    exact ⟨rfl, rfl, hresult⟩

theorem foldlM_threadTo_idle {ns : List BlockId}
    (h : ns.foldlM (threadTo id) (f, changed) = .ok (g, false)) :
    changed = false ∧ g = f ∧ ∀ n ∈ ns, f.destination? n = .ok none := by
  induction ns generalizing f changed with
  | nil =>
    cases h
    exact ⟨rfl, rfl, List.forall_mem_nil _⟩
  | cons n ns ih =>
    rw [List.foldlM_cons] at h
    obtain ⟨⟨f', changed'⟩, hfirst, h⟩ := bind_eq_ok.1 h
    obtain ⟨rfl, rfl, hrest⟩ := ih h
    obtain ⟨rfl, rfl, hn⟩ := threadTo_idle hfirst
    exact ⟨rfl, rfl, List.forall_mem_cons.2 ⟨hn, hrest⟩⟩

theorem thread_idle {block : Block} (hb : f.block? id = some block)
    (h : f.thread id = .ok (g, false)) :
    g = f ∧ ∀ n ∈ block.successors, f.destination? n = .ok none := by
  rw [thread, block_eq_ok.2 hb] at h
  exact (foldlM_threadTo_idle h).2

theorem simplifyWithin_idle {fuel : Nat} (h : simplifyWithin id fuel f changed = .ok (g, false)) :
    changed = false ∧ g = f ∧ ∀ block, f.block? id = some block →
      Pass.branches.Idle table used f block := by
  induction fuel generalizing f changed with
  | zero => cases h
  | succ fuel ih =>
    obtain ⟨block, hblock, h⟩ := bind_eq_ok.1 h
    have hb := block_eq_ok.1 hblock
    cases hd : block.decide? with
    | some new =>
      rw [hd] at h
      cases (ih h).1
    | none =>
      rw [hd] at h
      obtain ⟨⟨f', threaded⟩, hthread, h⟩ := bind_eq_ok.1 h
      cases threaded with
      | true => cases (ih h).1
      | false =>
        cases h
        obtain ⟨rfl, hlinks⟩ := thread_idle hb hthread
        refine ⟨rfl, rfl, fun other hother => ?_⟩
        cases hb.symm.trans hother
        exact ⟨by simpa [Block.decide?] using hd, hlinks⟩

end Function

/-- A pass that reports no change of a block leaves the function as it is, and has
nothing to do there. -/
theorem Pass.idle_of_runOn {pass : Pass} {f g : Function} {id : BlockId} (ha : f.Agrees)
    (h : pass.runOn table used f id = .ok (g, false)) :
    g = f ∧ ∃ block, f.block? id = some block ∧ pass.Idle table used f block := by
  obtain ⟨block, hblock, h⟩ := bind_eq_ok.1 h
  have hb := Function.block_eq_ok.1 hblock
  have hself : ∀ {new : Block} {changed : Bool}, new = block →
      Except.ok (ε := Fault) (f.setBlock id new, changed) = .ok (g, false) → g = f := by
    rintro _ changed rfl h
    cases h
    exact Function.setBlock_self hb
  cases pass with
  | folding =>
    have hidle : block.fold = block := by
      simpa using congrArg Prod.snd (Except.ok.inj h)
    exact ⟨hself hidle h, block, hb, hidle⟩
  | propagation =>
    have hidle : block.propagate table = block := by
      simpa using congrArg Prod.snd (Except.ok.inj h)
    exact ⟨hself hidle h, block, hb, hidle⟩
  | deadCode =>
    have hlength : (block.prune table used).instructions.length = block.instructions.length := by
      simpa using congrArg Prod.snd (Except.ok.inj h)
    have hidle := (ha hb).prune_eq_self hlength
    exact ⟨hself hidle h, block, hb, hidle⟩
  | branches =>
    obtain ⟨_, -, h⟩ := bind_eq_ok.1 h
    obtain ⟨-, hg, hidle⟩ := Function.simplifyWithin_idle h
    exact ⟨hg, block, hb, hidle block hb⟩

/-! ## Whole rounds -/

namespace Function

variable {f g : Function}

theorem changes_sublist_of_visits {steps : List (BlockId × Pass)} {changes changes' : List Change}
    (h : steps.foldlM (visit table used) (f, changes) = .ok (g, changes')) :
    changes.Sublist changes' := by
  induction steps generalizing f changes with
  | nil =>
    cases h
    exact .refl _
  | cons step steps ih =>
    rw [List.foldlM_cons] at h
    obtain ⟨⟨f', changes₁⟩, hfirst, h⟩ := bind_eq_ok.1 h
    obtain ⟨⟨f', changed⟩, -, hfirst⟩ := bind_eq_ok.1 hfirst
    cases hfirst
    refine List.Sublist.trans ?_ (ih h)
    cases changed with
    | true => exact List.sublist_append_left ..
    | false => exact .refl _

theorem foldlM_visit_idle (ha : f.Agrees) {steps : List (BlockId × Pass)}
    (h : steps.foldlM (visit table used) (f, []) = .ok (g, [])) :
    g = f ∧ ∀ step ∈ steps, ∃ block, f.block? step.1 = some block ∧
      step.2.Idle table used f block := by
  induction steps with
  | nil =>
    cases h
    exact ⟨rfl, List.forall_mem_nil _⟩
  | cons step steps ih =>
    rw [List.foldlM_cons] at h
    obtain ⟨⟨f', changes⟩, hfirst, hlast⟩ := bind_eq_ok.1 h
    obtain ⟨⟨f', changed⟩, hrun, hfirst⟩ := bind_eq_ok.1 hfirst
    cases hfirst
    have hnone := List.sublist_nil.1 (changes_sublist_of_visits hlast)
    cases changed with
    | true => cases hnone
    | false =>
      obtain ⟨rfl, hidle⟩ := Pass.idle_of_runOn ha hrun
      obtain ⟨hg, hrest⟩ := ih hlast
      exact ⟨hg, List.forall_mem_cons.2 ⟨hidle, hrest⟩⟩

def Settled (table : SymbolTable) (f : Function) : Prop :=
  ∀ id ∈ f.preorder, ∀ pass : Pass, ∃ block, f.block? id = some block ∧
    pass.Idle table (f.usedBy f.preorder) f block

variable {passes : List Pass}

theorem eq_of_round (hl : f.Linked) (ha : f.Agrees) (h : f.round passes table = .ok (g, [])) :
    g = f := by
  rw [round, hl.order, hl.used] at h
  exact (foldlM_visit_idle ha h).1

theorem settled_of_round (hl : f.Linked) (ha : f.Agrees) (hall : ∀ pass, pass ∈ passes)
    (h : f.round passes table = .ok (g, [])) :
    f.Settled table := by
  rw [round, hl.order, hl.used] at h
  intro id hid pass
  refine (foldlM_visit_idle ha h).2 (id, pass) ?_
  exact List.mem_flatMap.2 ⟨id, hid, List.mem_map.2 ⟨pass, hall pass, rfl⟩⟩

theorem quiet_of_mapM_round {fs : List Function} {results : List (Function × List Change)}
    (hfs : ∀ f ∈ fs, f.WellFormed table) (h : fs.mapM (round passes table) = .ok results)
    (hnone : results.flatMap Prod.snd = []) :
    results.map Prod.fst = fs ∧ ∀ f ∈ fs, f.round passes table = .ok (f, []) := by
  induction fs generalizing results with
  | nil =>
    cases h
    exact ⟨rfl, List.forall_mem_nil _⟩
  | cons f fs ih =>
    rw [List.mapM_cons] at h
    obtain ⟨⟨g, changes⟩, hround, h⟩ := bind_eq_ok.1 h
    obtain ⟨rest, hrest, h⟩ := bind_eq_ok.1 h
    cases h
    obtain ⟨hf, hothers⟩ := List.forall_mem_cons.1 hfs
    obtain ⟨rfl, hnone⟩ := List.append_eq_nil_iff.1 hnone
    obtain rfl := eq_of_round hf.linked hf.agrees hround
    obtain ⟨hmap, hquiet⟩ := ih hothers hrest hnone
    exact ⟨congrArg (g :: ·) hmap, List.forall_mem_cons.2 ⟨hround, hquiet⟩⟩

end Function

namespace Module

variable {m m' : Module} {passes : List Pass}

/-- A round over a well-formed module that changes nothing. -/
theorem WellFormed.quiet_of_round (hm : m.WellFormed) (h : m.round passes = .ok (m', [])) :
    m' = m ∧ ∀ f ∈ m.functions, f.round passes m.symbols = .ok (f, []) := by
  obtain ⟨results, hresults, h⟩ := bind_eq_ok.1 h
  have hnone : results.flatMap Prod.snd = [] := congrArg Prod.snd (Except.ok.inj h)
  have hm' : { m with functions := results.map Prod.fst } = m' :=
    congrArg Prod.fst (Except.ok.inj h)
  obtain ⟨hmap, hquiet⟩ := Function.quiet_of_mapM_round hm hresults hnone
  exact ⟨by rw [← hm', hmap], hquiet⟩

theorem WellFormed.of_round {changes : List Change} (hm : m.WellFormed)
    (h : m.round passes = .ok (m', changes)) : m'.WellFormed := by
  obtain ⟨_, _, hround, hsymbols, hfunctions, -⟩ :=
    Linked.exists_round (fun f hf => (hm f hf).linked) passes fun f hf => length_le_of_mem hf
  cases h.symm.trans hround
  intro g hg
  obtain ⟨f, hf, hfg⟩ := forall₂_exists_left hfunctions hg
  rw [hsymbols]
  exact ((hm f hf).round hfg).1

theorem WellFormed.quiet_of_repeats {n : Nat} (hm : m.WellFormed) (h : Repeats passes n m m') :
    m'.WellFormed ∧ m'.round passes = .ok (m', []) := by
  induction h with
  | last h =>
    obtain ⟨rfl, -⟩ := hm.quiet_of_round h
    exact ⟨hm, h⟩
  | again h _ _ ih => exact ih (hm.of_round h)

theorem WellFormed.quiet_of_optimize {o : Optimized} (hm : m.WellFormed) (hne : passes ≠ [])
    (h : m.optimize passes = .ok o) :
    o.result.WellFormed ∧ o.result.round passes = .ok (o.result, []) :=
  hm.quiet_of_repeats (repeats_of_optimize hne h)

/-- The optimizer stops at a module whose functions are settled, if it runs every
pass. -/
theorem WellFormed.settled_of_optimize {o : Optimized} (hm : m.WellFormed)
    (hall : ∀ pass, pass ∈ passes) (h : m.optimize passes = .ok o) :
    ∀ f ∈ o.result.functions, f.Settled o.result.symbols := by
  obtain ⟨ho, hquiet⟩ := hm.quiet_of_optimize (List.ne_nil_of_mem (hall .folding)) h
  intro f hf
  have hround := (ho.quiet_of_round hquiet).2 f hf
  exact Function.settled_of_round (ho f hf).linked (ho f hf).agrees hall hround

/-! ## Optimizing again -/

theorem roundBound_pos (m : Module) : 0 < m.roundBound :=
  Nat.mul_pos (Nat.succ_pos _) (Nat.succ_pos _)

theorem optimize_of_quiet (hne : passes ≠ []) (h : m.round passes = .ok (m, [])) :
    m.optimize passes = .ok ⟨m, 1, []⟩ := by
  rw [optimize, if_neg (by simpa using hne)]
  cases hbound : m.roundBound with
  | zero => exact absurd hbound m.roundBound_pos.ne'
  | succ fuel =>
    rw [repeatRounds, h]
    rfl

end Module

end Cinder.Flow
