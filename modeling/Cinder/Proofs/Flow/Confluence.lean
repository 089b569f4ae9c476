import Cinder.Flow.Listing
import Cinder.Proofs.Flow.Apart
import Cinder.Proofs.Flow.Destinations
import Cinder.Proofs.Flow.Idle
import Cinder.Proofs.Flow.Typed

/-!
# Settled functions are unique

No rewrite changes the outline of a function in normal form, and in a settled
function every block that control gets to is in normal form, with links that lead
past all blocks that only jump.  So two settled functions that come from one are the
same wherever control gets, and are listed alike.
-/

namespace Cinder.Flow

variable {inside : BlockId → Prop} {id : BlockId}

variable {table : SymbolTable} {used : VariableSet}

namespace Function

/-- What lowering promises of a function and every rewrite keeps. -/
structure Standard (table : SymbolTable) (f : Function) : Prop where
  wellFormed : f.WellFormed table
  proper : f.Proper table
  apart : f.Apart table
  acyclic : f.Acyclic

variable {f g : Function}

theorem Standard.rewrite (h : f.Standard table) (hconf : f.Confined inside used) (hid : inside id)
    (hrw : f.Rewrite table used id g) : g.Standard table where
  wellFormed := ⟨h.wellFormed.linked.rewrite hrw, Agrees.rewrite h.wellFormed.agrees hrw,
    Tidied.rewrite h.wellFormed.tidied hconf hid hrw⟩
  proper := h.proper.rewrite hrw
  apart := h.apart.rewrite hrw
  acyclic := h.acyclic.rewrite h.wellFormed.agrees hrw

/-! ## Rewrites leave the outline -/

theorem normalized_setBlock_of_normal {block new : Block} (hb : f.block? id = some block)
    (hnew : new.normal table = block.normal table) :
    (f.setBlock id new).normalized table = f.normalized table := by
  have hblock : (f.normalized table).block? id = some (block.normal table) := by
    rw [block?_normalized, hb, Option.map_some]
  rw [normalized_setBlock, hnew, setBlock_self hblock]

theorem Standard.outline_rewrite (h : f.Standard table) (hconf : f.Confined inside used)
    (hid : inside id) (hrw : f.Rewrite table used id g) :
    (g.normalized table).outline = (f.normalized table).outline := by
  obtain ⟨block, new, hb, hrw, rfl⟩ := hrw
  have ha := h.wellFormed.agrees hb
  cases hrw with
  | fold => rw [normalized_setBlock_of_normal hb block.normal_fold]
  | propagate =>
    rw [normalized_setBlock_of_normal hb (Block.normal_propagate (h.wellFormed.tidied hb))]
  | prune =>
    have hregular : ∀ i ∈ block.instructions, i.Regular table :=
      fun i hi => (h.proper _ _ hb i hi).regular
    have huses : ∀ i ∈ block.instructions, ∀ v ∈ i.uses, v ∈ used :=
      fun i hi v hv => hconf.uses hid hb hi hv
    rw [normalized_setBlock_of_normal hb (Block.normal_prune ha hregular huses)]
  | decide hd => rw [normalized_setBlock_of_normal hb (Block.normal_decide ha hd)]
  | redirect hlead _ _ =>
    have hblock : (f.normalized table).block? id = some (block.normal table) := by
      rw [block?_normalized, hb, Option.map_some]
    rw [normalized_setBlock, Block.normal_redirect,
      outline_redirect (h.acyclic.normalized h.wellFormed.agrees)
        (Agrees.normalized h.wellFormed.agrees) hblock hlead.normalized]

/-- Functions with the same head whose blocks do the same in the end. -/
structure Alike (table : SymbolTable) (f g : Function) : Prop where
  head : { f with blocks := g.blocks } = g
  size : f.blocks.size = g.blocks.size
  outline : (f.normalized table).outline = (g.normalized table).outline

theorem Alike.refl (f : Function) : f.Alike table f :=
  ⟨rfl, rfl, rfl⟩

theorem Alike.symm (h : f.Alike table g) : g.Alike table f := by
  refine ⟨?_, h.size.symm, h.outline.symm⟩
  rw [← h.head]

theorem Alike.trans {k : Function} (h : f.Alike table g) (h' : g.Alike table k) :
    f.Alike table k := by
  refine ⟨?_, h.size.trans h'.size, h.outline.trans h'.outline⟩
  rw [← h'.head, ← h.head]

theorem Standard.round (h : f.Standard table) (hround : f.Round table g) :
    g.Standard table ∧ f.Alike table g := by
  have hkept := RewritesIn.keep hround
    (P := fun g => g.Standard table ∧ g.Confined (· ∈ f.preorder) (f.usedBy f.preorder) ∧
      f.Alike table g)
    (by
      intro id g g' hid hrw ⟨hg, hconf, halike⟩
      refine ⟨hg.rewrite hconf hid hrw, hconf.rewrite hrw, halike.trans ⟨?_, ?_, ?_⟩⟩
      · obtain ⟨_, _, _, _, rfl⟩ := hrw
        rfl
      · obtain ⟨_, _, _, _, rfl⟩ := hrw
        exact (setBlock_size ..).symm
      · exact (hg.outline_rewrite hconf hid hrw).symm)
    ⟨h, h.wellFormed.linked.confined h.wellFormed.agrees, .refl f⟩
  exact ⟨hkept.1, hkept.2.2⟩

theorem Standard.rounds (h : f.Standard table) (hrounds : f.Rounds table g) :
    g.Standard table ∧ f.Alike table g := by
  induction hrounds with
  | refl => exact ⟨h, .refl f⟩
  | tail _ hround ih =>
    obtain ⟨hg, halike⟩ := ih
    obtain ⟨hg', halike'⟩ := hg.round hround
    exact ⟨hg', halike.trans halike'⟩

/-! ## Blocks of settled functions -/

theorem Acyclic.exists_follow (hc : f.Acyclic) (ha : f.Agrees) (hl : f.Linked)
    {fresh : List BlockId} {current : BlockId} (hlt : current < f.blocks.size)
    (hfresh : ∀ k, k < f.blocks.size → Relation.ReflTransGen f.Edge current k → k ∈ fresh) :
    ∃ d, f.follow fresh current = .ok (some d) := by
  fun_induction Function.follow f fresh current with
  | case1 fresh current ih =>
    obtain ⟨block, hb⟩ := exists_block? hlt
    simp only [block_eq_ok.2 hb, bind, Except.bind]
    cases hp : block.proxyTarget? with
    | none => exact ⟨current, rfl⟩
    | some k =>
      have hk : k ∈ block.successors := (ha hb).mem_successors (jumpsTo_of_proxyTarget? hp)
      have hedge : f.Edge current k := (edge_of_block? hb).2 hk
      have hexit : current ≠ f.exit := by
        rintro rfl
        rw [(ha hb).successors_exit] at hk
        cases hk
      have hmem : current ∈ fresh := hfresh current hlt .refl
      simp only [hexit, if_false, hmem, dif_pos]
      refine ih k hmem (hl.jumps hb (jumpsTo_of_proxyTarget? hp)) fun j hj hkj => ?_
      have hne : j ≠ current := by
        rintro rfl
        exact hc.not_transGen j (.head' hedge hkj)
      exact (List.mem_erase_of_ne hne).2 (hfresh j hj (.head hedge hkj))

theorem Acyclic.isProxy_of_destination? (hc : f.Acyclic) (ha : f.Agrees) (hl : f.Linked)
    {n : BlockId} (hlt : n < f.blocks.size) (h : f.destination? n = .ok none) :
    f.isProxy n = false := by
  obtain ⟨d, hd⟩ := hc.exists_follow ha hl hlt fun k hk _ => mem_handles.2 hk
  obtain ⟨-, block, hb, hp⟩ := leads_of_follow hd
  have hdn : d = n := by simpa [destination?, hd, bind, Except.bind, pure, Except.pure] using h
  rw [← hdn, isProxy_of_block? hb, hp]
  rfl

section

variable {j : BlockId} {block : Block} (hf : f.Standard table) (hs : f.Settled table)
  (hj : j ∈ f.preorder) (hb : f.block? j = some block)

include hs hj hb

theorem Settled.idle (pass : Pass) : pass.Idle table (f.usedBy f.preorder) f block := by
  obtain ⟨other, hother, hidle⟩ := hs j hj pass
  cases hb.symm.trans hother
  exact hidle

include hf

theorem Settled.exists_read {i : Instruction} (hi : i ∈ block.instructions)
    (heffect : i.hasSideEffect table = false) {v : Variable} (hv : i.definition = some v) :
    ∃ k ∈ block.instructions, v ∈ k.uses := by
  have hprune : block.instructions.filter (Block.keeps table (f.usedBy f.preorder)) =
      block.instructions := by
    have hidle := hs.idle hj hb .deadCode
    rw [Pass.Idle, (hf.wellFormed.agrees hb).prune_eq] at hidle
    exact congrArg Block.instructions hidle
  have hkeeps : v ∈ f.usedBy f.preorder := by
    have hkeeps := List.filter_eq_self.1 hprune i hi
    simpa [Block.keeps, heffect, hv] using hkeeps
  have htemp : table.isTemporary v.symbol = true := by
    obtain ⟨v', hv', htemp⟩ := (hf.proper _ _ hb i hi).regular.exists_temporary heffect
    cases hv.symm.trans hv'
    exact htemp
  rw [usedBy, Std.ExtTreeSet.mem_ofList, List.contains_iff_mem] at hkeeps
  obtain ⟨k, hk, hread⟩ := List.mem_flatMap.1 hkeeps
  obtain ⟨j', hj', hk⟩ := List.mem_flatMap.1 hk
  obtain ⟨other, hother⟩ := exists_block? (lt_size_of_mem_preorder hf.wellFormed.linked.exit hj')
  rw [instructionsOf_of_block? hother] at hk
  -- the block that reads the temporary also writes it, so it is the same block
  obtain ⟨done, rest, hsplit⟩ := List.append_of_mem hk
  have hwritten : v ∈ temporaries table done := by
    have hordered := (hf.wellFormed.tidied hother).ordered
    rw [hsplit] at hordered
    exact hordered.mem hread htemp
  obtain ⟨writer, hwriter, hdefines⟩ := List.mem_filterMap.1 hwritten
  have hhere : f.Defines v j := ⟨block, hb, List.mem_filterMap.2 ⟨i, hi, hv⟩⟩
  have hthere : f.Defines v j' := by
    refine ⟨other, hother, List.mem_filterMap.2 ⟨writer, ?_, ?_⟩⟩
    · rw [hsplit]
      exact List.mem_append_left _ hwriter
    · exact (Instruction.temporary?_eq_some.1 hdefines).1
  have hsame := hf.apart v j j' htemp hhere hthere
  subst hsame
  cases hb.symm.trans hother
  exact ⟨k, hk, hread⟩

theorem Settled.normal_eq : block.normal table = block :=
  Block.normal_of_quiet (hf.wellFormed.tidied hb) (fun i hi => (hf.proper _ _ hb i hi).regular)
    (hs.idle hj hb .folding) (hs.idle hj hb .propagation)
    (fun _ hi heffect _ hv => hs.exists_read hf hj hb hi heffect hv) (hs.idle hj hb .branches).1

theorem Settled.block?_normalized : (f.normalized table).block? j = some block := by
  rw [Function.block?_normalized, hb, Option.map_some, hs.normal_eq hf hj hb]

theorem Settled.ends_eq {n : BlockId} (hn : n ∈ block.successors) :
    (f.normalized table).ends n = {n} := by
  have hl := hf.wellFormed.linked
  have hlt : n < f.blocks.size := by
    rw [← successorsOf_of_block? hb] at hn
    exact hl.successors_lt hn
  have hproxy : f.isProxy n = false :=
    hf.acyclic.isProxy_of_destination? hf.wellFormed.agrees hl hlt
      ((hs.idle hj hb .branches).2 n hn)
  obtain ⟨target, htarget⟩ := exists_block? hlt
  have hnormal : (f.normalized table).isProxy n = false := by
    have hmem := hl.mem_preorder hf.wellFormed.agrees hj hb hn
    rw [isProxy_of_block? (hs.block?_normalized hf hmem htarget), ← isProxy_of_block? htarget]
    exact hproxy
  exact Set.ext fun d => endsAt_self hnormal

end

/-! ## Settled functions that are alike -/

/-- Walks over functions that lead to the same blocks from some blocks that they
do not leave. -/
theorem walk_congr (hsame : ∀ j, inside j → f.successorsOf j = g.successorsOf j)
    (hclosed : ∀ j, inside j → ∀ n ∈ f.successorsOf j, inside n) (fresh stack : List BlockId)
    (hstack : ∀ n ∈ stack, inside n) : f.walk fresh stack = g.walk fresh stack := by
  fun_induction Function.walk f fresh stack with
  | case1 => rw [walk]
  | case2 fresh id stack h ih =>
    obtain ⟨hid, hstack⟩ := List.forall_mem_cons.1 hstack
    rw [walk_cons_of_mem h, ← hsame id hid, ih]
    exact List.forall_mem_append.2 ⟨hclosed id hid, hstack⟩
  | case3 fresh id stack h ih =>
    rw [walk_cons_of_not_mem h, ih (List.forall_mem_cons.1 hstack).2]

section

variable (hf : f.Standard table) (hg : g.Standard table) (hsf : f.Settled table)
  (hsg : g.Settled table) (halike : f.Alike table g)

include hf hg hsf hsg halike

theorem Alike.block?_eq {j : BlockId} (hj : j ∈ f.preorder) (hj' : j ∈ g.preorder) :
    f.block? j = g.block? j := by
  obtain ⟨block, hb⟩ := exists_block? (lt_size_of_mem_preorder hf.wellFormed.linked.exit hj)
  obtain ⟨new, hnew⟩ := exists_block? (lt_size_of_mem_preorder hg.wellFormed.linked.exit hj')
  have houtline := congrFun halike.outline j
  rw [Function.outline, Function.outline, hsf.block?_normalized hf hj hb,
    hsg.block?_normalized hg hj' hnew] at houtline
  simp only [Option.map_some, Option.some.injEq, Prod.mk.injEq] at houtline
  obtain ⟨hinstructions, hnext, hbranch⟩ := houtline
  have hlink : ∀ {link link' : Option BlockId}, (∀ n ∈ link, n ∈ block.successors) →
      (∀ n ∈ link', n ∈ new.successors) →
      link.map (f.normalized table).ends = link'.map (g.normalized table).ends → link = link' := by
    intro link link' hlink hlink' h
    cases link with
    | none =>
      cases link' with
      | none => rfl
      | some n' => cases h
    | some n =>
      cases link' with
      | none => cases h
      | some n' =>
        have h := Option.some.inj h
        rw [hsf.ends_eq hf hj hb (hlink n rfl), hsg.ends_eq hg hj' hnew (hlink' n' rfl),
          Set.singleton_eq_singleton_iff] at h
        rw [h]
  have hexit : f.exit = g.exit := by rw [← halike.head]
  rw [hb, hnew]
  congr 1
  refine (hf.wellFormed.agrees hb).eq_of_detached ?_ hinstructions
    (hlink (fun n hn => ?_) (fun n hn => ?_) hnext)
    (hlink (fun n hn => ?_) (fun n hn => ?_) hbranch)
  · rw [hexit]
    exact hg.wellFormed.agrees hnew
  all_goals simp [Block.successors, Option.mem_def.1 hn]

theorem Alike.preorder_eq : f.preorder = g.preorder := by
  have hl := hf.wellFormed.linked
  have hl' := hg.wellFormed.linked
  have hentry : f.entry = g.entry := by rw [← halike.head]
  have hexit : f.exit = g.exit := by rw [← halike.head]
  have hhandles : f.blocks.handles = g.blocks.handles := by
    rw [Arena.handles, Arena.handles, halike.size]
  have hsame : ∀ j, j ∈ f.preorder ∧ j ∈ g.preorder → f.successorsOf j = g.successorsOf j := by
    rintro j ⟨hj, hj'⟩
    rw [successorsOf, successorsOf, halike.block?_eq hf hg hsf hsg hj hj']
  have hclosed : ∀ j, j ∈ f.preorder ∧ j ∈ g.preorder → ∀ n ∈ f.successorsOf j,
      n ∈ f.preorder ∧ n ∈ g.preorder := by
    rintro j ⟨hj, hj'⟩ n hn
    obtain ⟨block, hb⟩ := exists_block? (lt_size_of_mem_preorder hl.exit hj)
    rw [successorsOf_of_block? hb] at hn
    refine ⟨hl.mem_preorder hf.wellFormed.agrees hj hb hn, ?_⟩
    rw [halike.block?_eq hf hg hsf hsg hj hj'] at hb
    exact hl'.mem_preorder hg.wellFormed.agrees hj' hb hn
  have hstart : ∀ n ∈ [f.entry], n ∈ f.preorder ∧ n ∈ g.preorder := by
    intro n hn
    rw [List.mem_singleton.1 hn]
    refine ⟨entry_mem_preorder hl.entry, ?_⟩
    rw [hentry]
    exact entry_mem_preorder hl'.entry
  rw [preorder, preorder, interior, interior, walk_congr hsame hclosed _ _ hstart, hhandles, hexit,
    hentry]

theorem Alike.listing_eq : f.listing table = g.listing table := by
  have horder := halike.preorder_eq hf hg hsf hsg
  have hblocks : f.preorder.flatMap (f.blockListing table) =
      f.preorder.flatMap (g.blockListing table) := by
    rw [List.flatMap_def, List.flatMap_def]
    congr 1
    refine List.map_congr_left fun j hj => ?_
    rw [blockListing, blockListing, instructionsOf, instructionsOf,
      halike.block?_eq hf hg hsf hsg hj (horder ▸ hj)]
  have hname : f.name = g.name := by rw [← halike.head]
  have hparameters : f.parameters = g.parameters := by rw [← halike.head]
  have hreturn : f.returnType = g.returnType := by rw [← halike.head]
  rw [listing, listing, hf.wellFormed.linked.order, hg.wellFormed.linked.order, bind_ok, bind_ok,
    hblocks, horder, hname, hparameters, hreturn]

end

def Finishes (table : SymbolTable) (f g : Function) : Prop :=
  f.Rounds table g ∧ g.Settled table

theorem Finishes.listing_eq {g' : Function} (hf : f.Standard table) (h : f.Finishes table g)
    (h' : f.Finishes table g') : g.listing table = g'.listing table := by
  obtain ⟨hg, halike⟩ := hf.rounds h.1
  obtain ⟨hg', halike'⟩ := hf.rounds h'.1
  exact (halike.symm.trans halike').listing_eq hg hg' h.2 h'.2

theorem Finishes.mapM_listing_eq {fs gs gs' : List Function} (hfs : ∀ f ∈ fs, f.Standard table)
    (h : List.Forall₂ (Finishes table) fs gs) (h' : List.Forall₂ (Finishes table) fs gs') :
    gs.mapM (listing table) = gs'.mapM (listing table) := by
  induction h generalizing gs' with
  | nil =>
    cases h'
    rfl
  | cons hfirst _ ih =>
    cases h' with
    | cons hfirst' hrest' =>
      obtain ⟨hf, hfs⟩ := List.forall_mem_cons.1 hfs
      rw [List.mapM_cons, List.mapM_cons, hfirst.listing_eq hf hfirst', ih hfs hrest']

end Function

namespace Module

def Standard (m : Module) : Prop :=
  ∀ f ∈ m.functions, f.Standard m.symbols

variable {m : Module} {passes : List Pass}

/-- Running every pass until nothing changes settles all functions. -/
theorem Standard.exists_optimize (hm : m.Standard) (hall : ∀ pass, pass ∈ passes) :
    ∃ o, m.optimize passes = .ok o ∧ o.result.symbols = m.symbols ∧
      List.Forall₂ (Function.Finishes m.symbols) m.functions o.result.functions := by
  have hw : m.WellFormed := fun f hf => (hm f hf).wellFormed
  have hl : m.Linked := fun f hf => (hw f hf).linked
  obtain ⟨o, ho, hsymbols, hrounds⟩ := hl.exists_optimize passes
  refine ⟨o, ho, hsymbols, forall₂_imp_of_mem ?_ hrounds⟩
  intro f g _ hg hfg
  exact ⟨hfg, hsymbols ▸ hw.settled_of_optimize hall ho g hg⟩

/-- The listing of a settled module does not depend on the passes that led there. -/
theorem Standard.exists_listing (hm : m.Standard) :
    ∃ text, ∀ passes, (∀ pass, pass ∈ passes) →
      ∃ o, m.optimize passes = .ok o ∧ o.result.listing = .ok text := by
  have hall : ∀ pass, pass ∈ Pass.all := fun pass => by cases pass <;> decide
  obtain ⟨o, -, -, hfinishes⟩ := hm.exists_optimize hall
  obtain ⟨texts, htexts, -⟩ := exists_mapM (l := o.result.functions)
    (g := Function.listing m.symbols) (P := fun _ _ => True) (by
      intro g hg
      obtain ⟨f, hf, hrounds, -⟩ := forall₂_exists_left hfinishes hg
      have hl := ((hm f hf).rounds hrounds).1.wellFormed.linked
      exact ⟨_, by rw [Function.listing, hl.order]; rfl, trivial⟩)
  refine ⟨Styled.intercalate "\n" texts, fun passes hall => ?_⟩
  obtain ⟨o', ho', hsymbols', hfinishes'⟩ := hm.exists_optimize hall
  refine ⟨o', ho', ?_⟩
  rw [listing, hsymbols', Function.Finishes.mapM_listing_eq hm hfinishes' hfinishes, htexts]
  rfl

end Module

end Cinder.Flow
