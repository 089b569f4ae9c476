import Cinder.Proofs.Flow.Termination

/-!
# Rounds without a bound

The optimizer counts its rounds, and branch simplification its steps, against a
bound.  Here both loops are relations that know of no bound, and so is the state of
a function between two visits.  In a module whose links lead to its blocks both
loops come to an end, wherever they start.
-/

namespace Cinder.Flow

variable {table : SymbolTable}

namespace Function

/-- Simplifying a block in so many steps, each of which decides a jump or redirects
links, until there is nothing left to do. -/
inductive Simplifies (id : BlockId) : Nat → Function → Function → Prop where
  | done {f g block} (hb : f.block? id = some block) (hd : block.decide? = none)
      (ht : f.thread id = .ok (g, false)) : Simplifies id 0 f g
  | decide {n f g block new} (hb : f.block? id = some block) (hd : block.decide? = some new)
      (h : Simplifies id n (f.setBlock id new) g) : Simplifies id (n + 1) f g
  | thread {n f f' g block} (hb : f.block? id = some block) (hd : block.decide? = none)
      (ht : f.thread id = .ok (f', true)) (h : Simplifies id n f' g) : Simplifies id (n + 1) f g

variable {f g : Function}

theorem simplifies_of_simplifyWithin {id : BlockId} {fuel : Nat} {changed changed' : Bool}
    (h : simplifyWithin id fuel f changed = .ok (g, changed')) :
    ∃ n, Simplifies id n f g := by
  induction fuel generalizing f changed with
  | zero => cases h
  | succ fuel ih =>
    obtain ⟨block, hblock, h⟩ := bind_eq_ok.1 h
    have hb := block_eq_ok.1 hblock
    cases hd : block.decide? with
    | some new =>
      rw [hd] at h
      obtain ⟨n, hn⟩ := ih h
      exact ⟨n + 1, .decide hb hd hn⟩
    | none =>
      rw [hd] at h
      obtain ⟨⟨f', threaded⟩, ht, h⟩ := bind_eq_ok.1 h
      cases threaded with
      | true =>
        obtain ⟨n, hn⟩ := ih h
        exact ⟨n + 1, .thread hb hd ht hn⟩
      | false =>
        cases h
        exact ⟨0, .done hb hd ht⟩

theorem simplifies_of_simplify {id : BlockId} {changed : Bool}
    (h : f.simplify id = .ok (g, changed)) : ∃ n, Simplifies id n f g := by
  obtain ⟨block, -, h⟩ := bind_eq_ok.1 h
  exact simplifies_of_simplifyWithin h

/-! ## Between two visits -/

/-- What a function is after the first few visits of a round. -/
def Partway (passes : List Pass) (table : SymbolTable) (f g : Function) : Prop :=
  ∃ order used made left changes, f.order = .ok order ∧ f.used = .ok used ∧
    (order.flatMap fun id => passes.map fun pass => (id, pass)) = made ++ left ∧
    made.foldlM (visit table used) (f, []) = .ok (g, changes)

/-- What a function is between two visits, after any number of rounds and some
visits of another.  Every round may run passes of its own. -/
def Underway (table : SymbolTable) (f g : Function) : Prop :=
  ∃ h passes, Relation.ReflTransGen
      (fun a b => ∃ passes changes, a.round passes table = .ok (b, changes)) f h ∧
    h.Partway passes table g

theorem Linked.round_of_partway {passes : List Pass} (hl : f.Linked)
    (h : f.Partway passes table g) : f.Round table g := by
  obtain ⟨order, used, made, left, changes, horder, hused, hsteps, hfold⟩ := h
  rw [hl.order] at horder
  rw [hl.used] at hused
  cases horder
  cases hused
  have hinside : ∀ step ∈ made, step.1 ∈ f.preorder := by
    intro step hstep
    have hmem : step ∈ f.preorder.flatMap fun id => passes.map fun pass => (id, pass) := by
      rw [hsteps]
      exact List.mem_append_left _ hstep
    obtain ⟨id, hid, hstep⟩ := List.mem_flatMap.1 hmem
    obtain ⟨pass, -, rfl⟩ := List.mem_map.1 hstep
    exact hid
  have hstart : f.Round table f := .refl
  have hnone : ([] : List Change) ≠ [] → f.rank < f.rank := fun h => absurd rfl h
  obtain ⟨g', changes', hfold', hg', -⟩ := exists_visits hl
    (fun id hid => lt_size_of_mem_preorder hl.exit hid) hinside hstart hnone
  rw [hfold] at hfold'
  cases hfold'
  exact hg'

/-- Between any two visits a function is what rewrites in whole rounds could have
made of it. -/
theorem Linked.rounds_of_underway (hl : f.Linked) (h : f.Underway table g) :
    f.Rounds table g := by
  obtain ⟨k, passes, hrounds, hpart⟩ := h
  have hk : f.Rounds table k ∧ k.Linked := by
    clear hpart
    induction hrounds with
    | refl => exact ⟨.refl, hl⟩
    | tail _ h ih =>
      obtain ⟨hf, hlf⟩ := ih
      obtain ⟨passes, changes, h⟩ := h
      obtain ⟨g, changes', hround, hg, -⟩ := hlf.exists_round passes table
      rw [h] at hround
      cases hround
      exact ⟨hf.tail hg, RewritesIn.linked hg hlf⟩
  exact hk.1.tail (hk.2.round_of_partway hpart)

theorem Rounds.linked (h : f.Rounds table g) (hl : f.Linked) : g.Linked := by
  induction h with
  | refl => exact hl
  | tail _ h ih => exact RewritesIn.linked h ih

end Function

namespace Module

/-- What a module is in the middle of a round: the first functions are done, one is between
two visits, and the others wait. -/
def Partway (passes : List Pass) (m m' : Module) : Prop :=
  ∃ (done : List Function) (f : Function) (rest : List Function) (results : List _) (g : Function),
    m.functions = done ++ f :: rest ∧
    done.mapM (Function.round passes m.symbols) = .ok results ∧
    f.Partway passes m.symbols g ∧
    m' = { m with functions := results.map Prod.fst ++ g :: rest }

/-- What a module is at a point of a sequence of rounds.  Every round may run passes of its
own. -/
def Underway (m m' : Module) : Prop :=
  ∃ k, Relation.ReflTransGen (fun a b => ∃ passes changes, a.round passes = .ok (b, changes)) m k ∧
    (m' = k ∨ ∃ passes, k.Partway passes m')

variable {passes : List Pass} {m : Module}

theorem rounds_of_mapM {fs : List Function} {results : List (Function × List Change)}
    (hl : ∀ f ∈ fs, f.Linked) (h : fs.mapM (Function.round passes table) = .ok results) :
    List.Forall₂ (Function.Rounds table) fs (results.map Prod.fst) := by
  rw [List.forall₂_map_right_iff]
  refine forall₂_imp_of_mem ?_ (forall₂_of_mapM h)
  intro f result hf _ hresult
  obtain ⟨g, changes, hround, hg, -⟩ := (hl f hf).exists_round passes table
  rw [hresult] at hround
  cases hround
  exact .single hg

theorem linked_of_rounds {fs gs : List Function} (hl : ∀ f ∈ fs, f.Linked)
    (h : List.Forall₂ (Function.Rounds table) fs gs) : ∀ g ∈ gs, g.Linked := by
  intro g hg
  obtain ⟨f, hf, hfg⟩ := forall₂_exists_left h hg
  exact hfg.linked (hl f hf)

/-- At every point of a sequence of rounds the functions are what rewrites in whole rounds
could have made of them. -/
theorem Linked.rounds_of_underway {m' : Module} (hl : m.Linked) (h : m.Underway m') :
    m'.symbols = m.symbols ∧
      List.Forall₂ (Function.Rounds m.symbols) m.functions m'.functions := by
  obtain ⟨k, hrounds, hpart⟩ := h
  have hk : k.symbols = m.symbols ∧
      List.Forall₂ (Function.Rounds m.symbols) m.functions k.functions := by
    clear hpart
    induction hrounds with
    | refl => exact ⟨rfl, List.forall₂_same.2 fun _ _ => .refl⟩
    | @tail a b _ h ih =>
      obtain ⟨hsymbols, hfunctions⟩ := ih
      obtain ⟨passes, changes, h⟩ := h
      obtain ⟨results, hresults, h⟩ := bind_eq_ok.1 h
      cases h
      rw [hsymbols] at hresults
      refine ⟨hsymbols, forall₂_trans .trans hfunctions ?_⟩
      exact rounds_of_mapM (linked_of_rounds hl hfunctions) hresults
  rcases hpart with rfl | ⟨passes, done, f, rest, results, g, hfunctions, hdone, hg, rfl⟩
  · exact hk
  · obtain ⟨hsymbols, hk⟩ := hk
    have hlinked := linked_of_rounds hl hk
    rw [hfunctions] at hk hlinked
    rw [hsymbols] at hdone hg
    have hf : f.Linked := hlinked f (List.mem_append_right _ List.mem_cons_self)
    have hfg : f.Rounds m.symbols g := .single (hf.round_of_partway hg)
    have hdone := rounds_of_mapM (fun f hf => hlinked f (List.mem_append_left _ hf)) hdone
    refine ⟨hsymbols, forall₂_trans .trans hk (List.rel_append hdone (.cons hfg ?_))⟩
    exact List.forall₂_same.2 fun _ _ => .refl

/-- Rounds over a module, of which all but the last change something. -/
inductive Repeats (passes : List Pass) : Nat → Module → Module → Prop where
  | last {m m'} (h : m.round passes = .ok (m', [])) : Repeats passes 1 m m'
  | again {n m m' m'' changes} (h : m.round passes = .ok (m', changes)) (hne : changes ≠ [])
      (hrest : Repeats passes n m' m'') : Repeats passes (n + 1) m m''

theorem repeats_of_repeatRounds {fuel rounds : Nat} {changes : List Change} {o : Optimized}
    (h : repeatRounds passes fuel ⟨m, rounds, changes⟩ = .ok o) :
    ∃ n, o.rounds = rounds + n ∧ Repeats passes n m o.result := by
  induction fuel generalizing m rounds changes with
  | zero => cases h
  | succ fuel ih =>
    obtain ⟨⟨m', new⟩, hround, h⟩ := bind_eq_ok.1 h
    by_cases hnew : new = []
    · subst hnew
      cases h
      exact ⟨1, rfl, .last hround⟩
    · dsimp only at h
      rw [if_neg (by simpa using hnew)] at h
      obtain ⟨n, hn, hrest⟩ := ih h
      exact ⟨n + 1, by omega, .again hround hnew hrest⟩

theorem repeats_of_optimize {o : Optimized} (hne : passes ≠ []) (h : m.optimize passes = .ok o) :
    Repeats passes o.rounds m o.result := by
  rw [optimize, if_neg (by simpa using hne)] at h
  obtain ⟨n, hn, hrepeats⟩ := repeats_of_repeatRounds h
  rw [hn, Nat.zero_add]
  exact hrepeats

/-- In a module whose links and jumps lead to blocks the rounds come to an end with
one that changes nothing, and so does simplifying any block at any point between two
visits. -/
theorem Linked.ends {m : Module} (hl : m.Linked) (passes : List Pass) :
    (∃ o, m.optimize passes = .ok o ∧ (passes = [] → o.rounds = 0 ∧ o.result = m) ∧
      (passes ≠ [] → Repeats passes o.rounds m o.result)) ∧
    ∀ f ∈ m.functions, ∀ g, f.Underway m.symbols g → ∀ id < g.blocks.size,
      ∃ g' changed n, g.simplify id = .ok (g', changed) ∧ g.Simplifies id n g' := by
  constructor
  · obtain ⟨o, ho, -, -⟩ := hl.exists_optimize passes
    refine ⟨o, ho, ?_, fun hne => repeats_of_optimize hne ho⟩
    rintro rfl
    cases ho
    exact ⟨rfl, rfl⟩
  · intro f hf g hg id hid
    have hlg : g.Linked := ((hl f hf).rounds_of_underway hg).linked (hl f hf)
    obtain ⟨g', changed, hsimp, -, -⟩ := hlg.exists_simplify m.symbols ∅ hid
    obtain ⟨n, hn⟩ := Function.simplifies_of_simplify hsimp
    exact ⟨g', changed, n, hsimp, hn⟩

/-- Two blocks that jump to each other, one of them with links of its own mind, and
an exit that no jump leads to. -/
def circle : Module :=
  ⟨{}, [{ symbol := 0, name := "circle", returnType := none, entry := 0, exit := 2,
          blocks := .ofList [⟨[.label 0, .goto 1], some 1, some 2⟩,
            ⟨[.label 1, .goto 0], some 2, none⟩, ⟨[.label 2, .ret none], none, none⟩] }]⟩

theorem linked_circle : circle.Linked := by
  intro f hf
  obtain rfl := List.mem_singleton.1 hf
  refine ⟨by decide, by decide, ?_, ?_, ?_⟩
  · intro j block n hb h
    match j, hb with
    | 0, rfl => cases h; decide
    | 1, rfl => cases h; decide
    | 2, rfl => cases h
  · intro j block n hb h
    match j, hb with
    | 0, rfl => cases h; decide
    | 1, rfl => cases h
    | 2, rfl => cases h
  · intro j block n hb ⟨i, hi, h⟩
    match j, hb with
    | 0, rfl =>
      rcases hi with _ | ⟨_, _ | ⟨_, ⟨⟩⟩⟩
      · cases h
      · obtain rfl := eq_of_beq h
        decide
    | 1, rfl =>
      rcases hi with _ | ⟨_, _ | ⟨_, ⟨⟩⟩⟩
      · cases h
      · obtain rfl := eq_of_beq h
        decide
    | 2, rfl => rcases hi with _ | ⟨_, _ | ⟨_, ⟨⟩⟩⟩ <;> cases h

theorem ends_circle :
    circle.Linked ∧ ∃ o, circle.optimize Pass.all = .ok o ∧
      Repeats Pass.all o.rounds circle o.result := by
  obtain ⟨⟨o, ho, -, hrounds⟩, -⟩ := linked_circle.ends Pass.all
  exact ⟨linked_circle, o, ho, hrounds (by decide)⟩

end Module

end Cinder.Flow
