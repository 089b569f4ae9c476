import Cinder.Proofs.Flow.Acyclic
import Cinder.Proofs.Flow.Normal

/-!
# Where links lead in the end

Threading makes links skip blocks that only jump.  It does not matter when: the
block at which a link ends up, once all blocks are in normal form, stays what it
was.  Functions are alike if their blocks in normal form do the same and their links
end up at the same blocks.
-/

namespace Cinder

theorem Arena.get?_map {α β : Type} (f : α → β) (arena : Arena α) (i : Nat) :
    (arena.map f).get? i = (arena.get? i).map f := by
  simp [map, ofList, toList, get?]

theorem Arena.map_set {α β : Type} (f : α → β) (arena : Arena α) (i : Nat) (a : α) :
    (arena.set i a).map f = (arena.map f).set i (f a) := by
  simp [map, ofList, toList, set, List.map_set]

namespace Flow

variable {table : SymbolTable} {used : VariableSet}

/-! ## Functions in normal form -/

theorem Block.proxyTarget?_normal {block : Block} {k : BlockId}
    (h : block.proxyTarget? = some k) : (block.normal table).proxyTarget? = some k := by
  obtain ⟨l, next, branch⟩ := block
  have hl : l = [.goto k] ∨ ∃ j, l = [.label j, .goto k] :=
    Function.instructions_of_proxyTarget? h
  rcases hl with rfl | ⟨j, rfl⟩ <;> rfl

def Instruction.detached : Instruction → Instruction
  | .goto _ => .goto 0
  | .branch condition _ => .branch condition 0
  | i => i

theorem Instruction.detached_comp_retarget (source target : BlockId) :
    Instruction.detached ∘ Instruction.retarget source target = Instruction.detached := by
  funext i
  cases i <;> rfl

/-- The instruction with the block that it goes to if the links of its block are
these. -/
def Instruction.attached (next branch : Option BlockId) : Instruction → Instruction
  | .goto _ => .goto (next.getD 0)
  | .branch condition _ => .branch condition (branch.getD 0)
  | i => i

theorem Instruction.attached_detached {i : Instruction} (h : i.isPlain = true)
    (next branch : Option BlockId) : i.detached.attached next branch = i := by
  cases i with
  | goto => cases h
  | branch => cases h
  | _ => rfl

theorem Block.Agrees.map_attached {exit id : BlockId} {block : Block} (h : block.Agrees exit id) :
    block.instructions.map (fun i => i.detached.attached block.next block.branch) =
      block.instructions := by
  have hbody : ∀ {body : List Instruction} {next branch : Option BlockId},
      (∀ i ∈ body, i.isPlain = true) →
      body.map (fun i => i.detached.attached next branch) = body := by
    intro body next branch h
    calc body.map (fun i => i.detached.attached next branch)
        = body.map (fun i => i) :=
          List.map_congr_left fun i hi => Instruction.attached_detached (h i hi) next branch
      _ = body := List.map_id' body
  cases h with
  | fall _ h => rw [List.map_cons, hbody h]; rfl
  | goto _ h => rw [List.map_cons, List.map_append, hbody h]; rfl
  | branch _ h => rw [List.map_cons, List.map_append, hbody h]; rfl
  | ret _ h => rw [List.map_cons, List.map_append, hbody h]; rfl

theorem Block.Agrees.eq_of_detached {exit id : BlockId} {block new : Block}
    (h : block.Agrees exit id) (h' : new.Agrees exit id)
    (hinstructions : block.instructions.map Instruction.detached =
      new.instructions.map Instruction.detached)
    (hnext : block.next = new.next) (hbranch : block.branch = new.branch) : block = new := by
  have hi : block.instructions = new.instructions := by
    calc block.instructions
        = (block.instructions.map Instruction.detached).map
            (Instruction.attached block.next block.branch) := by
          rw [List.map_map]
          exact h.map_attached.symm
      _ = (new.instructions.map Instruction.detached).map
            (Instruction.attached new.next new.branch) := by
          rw [hinstructions, hnext, hbranch]
      _ = new.instructions := by
          rw [List.map_map]
          exact h'.map_attached
  obtain ⟨_, _, _⟩ := block
  obtain ⟨_, _, _⟩ := new
  cases hi
  cases hnext
  cases hbranch
  rfl

namespace Function

def normalized (table : SymbolTable) (f : Function) : Function :=
  { f with blocks := f.blocks.map (Block.normal table) }

variable {f g F G : Function}

theorem block?_normalized (f : Function) (j : BlockId) :
    (f.normalized table).block? j = (f.block? j).map (Block.normal table) :=
  Arena.get?_map ..

theorem normalized_setBlock (f : Function) (id : BlockId) (new : Block) :
    (f.setBlock id new).normalized table =
      (f.normalized table).setBlock id (new.normal table) := by
  simp only [normalized, setBlock, Arena.map_set]

theorem Agrees.normalized (ha : f.Agrees) : (f.normalized table).Agrees := by
  intro j new hnew
  rw [block?_normalized] at hnew
  obtain ⟨block, hb, rfl⟩ := Option.map_eq_some_iff.1 hnew
  exact (ha hb).normal

theorem Acyclic.normalized (hc : f.Acyclic) (ha : f.Agrees) : (f.normalized table).Acyclic := by
  refine hc.of_sinks fun j n hn => .inl ?_
  obtain ⟨new, hnew, hn⟩ := exists_block?_of_edge hn
  rw [block?_normalized] at hnew
  obtain ⟨block, hb, rfl⟩ := Option.map_eq_some_iff.1 hnew
  exact (edge_of_block? hb).2 ((ha hb).successors_normal hn)

theorem Leads.normalized {s t : BlockId} (h : f.Leads s t) : (f.normalized table).Leads s t := by
  induction h with
  | here => exact .here
  | @proxy j k target block hb hp _ ih =>
    have hb' : (f.normalized table).block? j = some (block.normal table) := by
      rw [block?_normalized, hb, Option.map_some]
    exact .proxy hb' (Block.proxyTarget?_normal hp) ih

/-! ## Ends of chains of jumps -/

/-- Going on from block to block as long as they only jump ends at a block. -/
def EndsAt (f : Function) (s d : BlockId) : Prop :=
  f.Leads s d ∧ f.isProxy d = false

theorem Leads.trans {s t d : BlockId} (h : f.Leads s t) (h' : f.Leads t d) : f.Leads s d := by
  induction h with
  | here => exact h'
  | proxy hb hp _ ih => exact .proxy hb hp (ih h')

theorem EndsAt.of_leads {s t d : BlockId} (h : f.Leads s t) (hd : f.EndsAt s d) : f.EndsAt t d := by
  obtain ⟨hlead, hend⟩ := hd
  refine ⟨?_, hend⟩
  induction h with
  | here => exact hlead
  | proxy hb hp _ ih =>
    cases hlead with
    | here =>
      rw [isProxy_of_block? hb, hp] at hend
      cases hend
    | proxy hb' hp' hlead =>
      cases hb.symm.trans hb'
      cases hp.symm.trans hp'
      exact ih hlead

theorem endsAt_iff_of_leads {s t d : BlockId} (h : f.Leads s t) : f.EndsAt s d ↔ f.EndsAt t d :=
  ⟨.of_leads h, fun hd => ⟨h.trans hd.1, hd.2⟩⟩

theorem endsAt_self {n d : BlockId} (h : f.isProxy n = false) : f.EndsAt n d ↔ d = n := by
  constructor
  · rintro ⟨hlead, -⟩
    cases hlead with
    | here => rfl
    | proxy hb hp _ =>
      rw [isProxy_of_block? hb, hp] at h
      cases h
  · rintro rfl
    exact ⟨.here, h⟩

section

variable {id s t : BlockId} {block : Block} (hb : F.block? id = some block) (hlead : F.Leads s t)

include hb hlead

/-- Redirecting a link along a chain of jumps leaves the ends of all chains. -/
theorem endsAt_redirect (hc : F.Acyclic) (ha : F.Agrees) {n d : BlockId} :
    (F.setBlock id (block.redirect s t)).EndsAt n d ↔ F.EndsAt n d := by
  have hproxy : (F.setBlock id (block.redirect s t)).isProxy = F.isProxy :=
    isProxy_setBlock hb (isSome_proxyTarget?_redirect ..)
  rw [EndsAt, EndsAt, hproxy]
  refine and_congr_left fun hend => ⟨fun h => ?_, fun h => ?_⟩
  · induction h with
    | here => exact .here
    | @proxy j k target other hother hp _ ih =>
      rw [block?_setBlock hb] at hother
      split at hother
      · rename_i hj
        cases hother
        rw [proxyTarget?_redirect] at hp
        obtain ⟨k', hk', rfl⟩ := Option.map_eq_some_iff.1 hp
        refine .proxy (hj ▸ hb) hk' ?_
        by_cases hs : k' = s
        · rw [if_pos hs] at ih
          rw [hs]
          exact hlead.trans (ih hend)
        · rw [if_neg hs] at ih
          exact ih hend
      · exact .proxy hother hp (ih hend)
  · -- the chain from the new target is a part of the old one
    induction n using hc.transGen.induction with
    | _ n ih =>
      have hbehind : ∀ {k}, Relation.TransGen F.Edge n k → F.Leads k d →
          (F.setBlock id (block.redirect s t)).Leads k d :=
        fun hk => ih _ (Relation.transGen_swap.1 hk)
      cases h with
      | here => exact .here
      | @proxy _ k _ other hother hp hk =>
        have hedge : F.Edge n k :=
          (edge_of_block? hother).2 ((ha hother).mem_successors (jumpsTo_of_proxyTarget? hp))
        by_cases hn : n = id
        · subst hn
          cases hb.symm.trans hother
          have hp' : (block.redirect s t).proxyTarget? = some (if k = s then t else k) := by
            rw [proxyTarget?_redirect, hp, Option.map_some]
          refine .proxy (block?_setBlock_self hb _) hp' ?_
          by_cases hs : k = s
          · subst hs
            rw [if_pos rfl]
            refine hbehind (.head' hedge (ha.edges_of_leads hlead)) ?_
            exact (EndsAt.of_leads hlead ⟨hk, hend⟩).1
          · rw [if_neg hs]
            exact hbehind (.single hedge) hk
        · refine .proxy ?_ hp (hbehind (.single hedge) hk)
          rw [block?_setBlock_of_ne hb _ hn]
          exact hother

end

/-! ## Outlines -/

def ends (f : Function) (n : BlockId) : Set BlockId :=
  {d | f.EndsAt n d}

def outline (f : Function) (j : BlockId) :
    Option (List Instruction × Option (Set BlockId) × Option (Set BlockId)) :=
  (f.block? j).map fun block =>
    (block.instructions.map Instruction.detached, block.next.map f.ends, block.branch.map f.ends)

theorem outline_redirect (hc : F.Acyclic) (ha : F.Agrees) {id s t : BlockId} {block : Block}
    (hb : F.block? id = some block) (hlead : F.Leads s t) :
    (F.setBlock id (block.redirect s t)).outline = F.outline := by
  have hends : (F.setBlock id (block.redirect s t)).ends = F.ends :=
    funext fun _ => Set.ext fun _ => endsAt_redirect hb hlead hc ha
  have hst : F.ends t = F.ends s := Set.ext fun _ => (endsAt_iff_of_leads hlead).symm
  have hlink : ∀ link : Option BlockId,
      (if link = some s then some t else link).map F.ends = link.map F.ends := by
    intro link
    split
    · rename_i hs
      rw [hs, Option.map_some, Option.map_some, hst]
    · rfl
  funext j
  rw [outline, outline, hends, block?_setBlock hb]
  split
  · rename_i hj
    simp only [hj, hb, Option.map_some, Block.redirect, hlink, List.map_map,
      Instruction.detached_comp_retarget]
  · rfl

end Function

end Flow

end Cinder
