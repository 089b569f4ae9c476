import Cinder.Proofs.Flow.Acyclic
import Cinder.Proofs.Flow.Lifetimes
import Mathlib.Data.Set.Basic

/-!
# What has been stored on the way

A slot may be read where every way there has stored a value in it.  Which slots these are
is said for every block and checked for every link: what a block is given, the block in
front of it has been given as well, or stores.  Rewrites keep that so.  Nothing has been
stored at the entry, so what is live there needs no store.
-/

namespace Cinder.Flow

variable {table : SymbolTable} {used : VariableSet} {v : Variable}

/-! ## Lists of instructions -/

def stored (l : List Instruction) : Set Variable :=
  {v | ∃ value ty, .store v value ty ∈ l}

theorem mem_stored {l : List Instruction} : v ∈ stored l ↔ ∃ value ty, .store v value ty ∈ l :=
  Iff.rfl

@[simp] theorem stored_nil : stored [] = ∅ := by
  ext v
  simp [mem_stored]

@[simp] theorem stored_append (l l' : List Instruction) :
    stored (l ++ l') = stored l ∪ stored l' := by
  ext v
  simp only [mem_stored, List.mem_append, Set.mem_union, exists_or]

theorem stored_cons (i : Instruction) (l : List Instruction) :
    stored (i :: l) = stored [i] ∪ stored l :=
  stored_append [i] l

theorem mem_stored_singleton {i : Instruction} :
    v ∈ stored [i] ↔ ∃ value ty, i = .store v value ty := by
  simp only [mem_stored, List.mem_singleton, eq_comm]

theorem definition_of_mem_stored {i : Instruction} (h : v ∈ stored [i]) :
    i.definition = some v := by
  obtain ⟨value, ty, rfl⟩ := mem_stored_singleton.1 h
  rfl

/-- Every slot that is read is ready, or a value has been stored in it by then.  Nothing is
said about temporaries. -/
def ReadsStored (table : SymbolTable) (ready : Set Variable) : List Instruction → Prop
  | [] => True
  | i :: rest =>
    (∀ v ∈ i.uses, table.isTemporary v.symbol = false → v ∈ ready) ∧
      ReadsStored table (ready ∪ stored [i]) rest

theorem readsStored_singleton {i : Instruction} (h : i.uses = []) (ready : Set Variable) :
    ReadsStored table ready [i] := by
  refine ⟨fun v hv _ => ?_, trivial⟩
  rw [h] at hv
  cases hv

theorem readsStored_append (ready : Set Variable) (l l' : List Instruction) :
    ReadsStored table ready (l ++ l') ↔
      ReadsStored table ready l ∧ ReadsStored table (ready ∪ stored l) l' := by
  induction l generalizing ready with
  | nil => simp [ReadsStored]
  | cons i rest ih =>
    rw [List.cons_append, ReadsStored, ReadsStored, ih, stored_cons i rest, and_assoc,
      Set.union_assoc]

/-- A slot that is live in front of some instructions is ready, or it is live behind them and
they store nothing in it. -/
theorem ReadsStored.mem_of_live {ready : Set Variable} {l : List Instruction} {s : VariableSet}
    (h : ReadsStored table ready l) (hlasting : table.isTemporary v.symbol = false)
    (hv : v ∈ l.foldr Instruction.live s) : v ∈ ready ∨ v ∈ s ∧ v ∉ stored l := by
  induction l generalizing ready with
  | nil =>
    rw [stored_nil]
    exact .inr ⟨hv, Set.notMem_empty v⟩
  | cons i rest ih =>
    rcases Instruction.mem_live.1 hv with huse | ⟨hv, hne⟩
    · exact .inl (h.1 v huse hlasting)
    · have hi : v ∉ stored [i] := fun hi => hne (definition_of_mem_stored hi)
      rw [stored_cons]
      rcases ih h.2 hv with (hready | hstored) | ⟨hs, hrest⟩
      · exact .inl hready
      · exact absurd hstored hi
      · exact .inr ⟨hs, fun hmem => hmem.elim hi hrest⟩

/-- What is left of some instructions: every store in a slot, and no new reads. -/
inductive Thins (table : SymbolTable) : List Instruction → List Instruction → Prop where
  | nil : Thins table [] []
  | replace {i i' l l'} (hstored : stored [i] ⊆ stored [i']) (huses : i'.uses ⊆ i.uses)
    (h : Thins table l l') : Thins table (i :: l) (i' :: l')
  | drop {i l l'} (hstored : ∀ v ∈ stored [i], table.isTemporary v.symbol = true)
    (h : Thins table l l') : Thins table (i :: l) l'

namespace Thins

variable {l l' k k' : List Instruction}

theorem map {g : Instruction → Instruction} (hstored : ∀ i, stored [i] ⊆ stored [g i])
    (huses : ∀ i, (g i).uses ⊆ i.uses) (l : List Instruction) : Thins table l (l.map g) := by
  induction l with
  | nil => exact .nil
  | cons i rest ih => exact .replace (hstored i) (huses i) ih

theorem refl (l : List Instruction) : Thins table l l := by
  induction l with
  | nil => exact .nil
  | cons i rest ih => exact .replace subset_rfl (.refl _) ih

theorem filter {p : Instruction → Bool}
    (hp : ∀ i, p i = false → ∀ v ∈ stored [i], table.isTemporary v.symbol = true)
    (l : List Instruction) : Thins table l (l.filter p) := by
  induction l with
  | nil => exact .nil
  | cons i rest ih =>
    cases hi : p i with
    | true =>
      rw [List.filter_cons_of_pos hi]
      exact .replace subset_rfl (.refl _) ih
    | false =>
      rw [List.filter_cons_of_neg (by simp [hi])]
      exact .drop (hp i hi) ih

theorem append (h : Thins table l l') (h' : Thins table k k') :
    Thins table (l ++ k) (l' ++ k') := by
  induction h with
  | nil => exact h'
  | replace hstored huses _ ih => exact .replace hstored huses ih
  | drop hstored _ ih => exact .drop hstored ih

theorem stored (h : Thins table l l') (hlasting : table.isTemporary v.symbol = false)
    (hv : v ∈ stored l) : v ∈ Flow.stored l' := by
  induction h with
  | nil => exact hv
  | @replace i i' l l' hstored _ _ ih =>
    rw [stored_cons] at hv ⊢
    exact hv.imp (fun hi => hstored hi) ih
  | @drop i l l' hstored _ ih =>
    rw [stored_cons] at hv
    rcases hv with hi | hl
    · rw [hstored v hi] at hlasting
      cases hlasting
    · exact ih hl

theorem readsStored {ready ready' : Set Variable} (h : Thins table l l')
    (hready : ∀ v ∈ ready, table.isTemporary v.symbol = false → v ∈ ready')
    (hl : ReadsStored table ready l) : ReadsStored table ready' l' := by
  induction h generalizing ready ready' with
  | nil => trivial
  | replace hstored huses _ ih =>
    refine ⟨fun v hv hlasting => hready v (hl.1 v (huses hv) hlasting) hlasting, ih ?_ hl.2⟩
    exact fun v hv hlasting => hv.imp (fun hv => hready v hv hlasting) fun hv => hstored hv
  | drop hstored _ ih =>
    refine ih ?_ hl.2
    rintro v (hv | hv) hlasting
    · exact hready v hv hlasting
    · rw [hstored v hv] at hlasting
      cases hlasting

end Thins

/-! ## Rewrites of blocks -/

namespace Instruction

theorem stored_fold (i : Instruction) : stored [i] ⊆ stored [i.fold] := by
  intro v hv
  obtain ⟨value, ty, rfl⟩ := mem_stored_singleton.1 hv
  exact hv

theorem stored_mapReplaceable (g : Operand → Operand) (i : Instruction) :
    stored [i] ⊆ stored [i.mapReplaceable g] := by
  intro v hv
  obtain ⟨value, ty, rfl⟩ := mem_stored_singleton.1 hv
  exact mem_stored_singleton.2 ⟨g value, ty, rfl⟩

theorem stored_retarget (source target : BlockId) (i : Instruction) :
    stored [i] ⊆ stored [i.retarget source target] := by
  intro v hv
  obtain ⟨value, ty, rfl⟩ := mem_stored_singleton.1 hv
  exact hv

end Instruction

namespace Block

variable {exit id : BlockId} {block new : Block}

theorem isTemporary_of_drops {i : Instruction} (h : keeps table used i = false)
    (hv : v ∈ stored [i]) : table.isTemporary v.symbol = true := by
  obtain ⟨value, ty, rfl⟩ := mem_stored_singleton.1 hv
  simp only [keeps, Bool.or_eq_false_iff] at h
  simpa [Instruction.hasSideEffect] using h.1

/-- Deciding the jump at the end of a block leaves the instructions in front of it. -/
theorem Agrees.thins_decide (ha : block.Agrees exit id) {l : List Instruction}
    {target : Option BlockId} (hd : decideBranch block.instructions = some (l, target)) :
    Thins table block.instructions l := by
  have hjump : ∀ {condition t v}, v ∉ stored [Instruction.branch condition t] := by
    intro condition t v hv
    obtain ⟨_, _, h⟩ := mem_stored_singleton.1 hv
    cases h
  obtain ⟨body, c, t, next, -, -, rfl, ⟨-, rfl, -⟩ | ⟨-, rfl, -⟩⟩ := ha.exists_of_decideBranch hd
  · rw [← List.append_nil (.label id :: body)]
    exact (Thins.refl (.label id :: body)).append (.drop (fun _ hv => absurd hv hjump) .nil)
  · exact (Thins.refl (.label id :: body)).append
      (.replace (fun _ hv => absurd hv hjump) (List.nil_subset _) .nil)

theorem Rewrite.thins {f : Function} (h : block.Rewrite table used f new)
    (ha : block.Agrees exit id) : Thins table block.instructions new.instructions := by
  cases h with
  | fold => exact .map Instruction.stored_fold Instruction.uses_fold_subset _
  | propagate =>
    exact .map (Instruction.stored_mapReplaceable _) (Instruction.uses_propagate_subset _) _
  | prune =>
    rw [ha.prune_eq]
    exact .filter (fun i hi v hv => isTemporary_of_drops hi hv) _
  | decide hd => exact ha.thins_decide hd
  | redirect =>
    refine .map (Instruction.stored_retarget _ _) (fun i => ?_) _
    rw [Instruction.uses_retarget]
    exact .refl _

/-- The exit of a function that returns what is in a slot. -/
def returning (exit : BlockId) (value slot : Variable) (ty : Ty) : Block :=
  ⟨[.label exit, .load value slot ty, .ret (some (.var value, ty))], none, none⟩

/-- Nothing changes an exit whose result is in use. -/
theorem Rewrite.eq_returning {f : Function} {value slot : Variable} {ty : Ty}
    (h : (returning id value slot ty).Rewrite table used f new) (hused : value ∈ used) :
    new = returning id value slot ty := by
  cases h with
  | fold => rfl
  | propagate => rfl
  | prune =>
    have hcontains : used.contains value = true := Std.ExtTreeSet.mem_iff_contains.1 hused
    have hplain : ∀ i ∈ [Instruction.load value slot ty], i.isPlain = true := by
      simp [Instruction.isPlain]
    have hagrees : (returning id value slot ty).Agrees id id := .ret rfl hplain
    rw [hagrees.prune_eq]
    simp [returning, keeps, Instruction.hasSideEffect, Instruction.definition, hcontains]
  | decide hd => cases hd
  | redirect => simp [returning, Block.redirect, Instruction.retarget]

end Block

/-! ## Functions -/

namespace Function

/-- Every block is given variables that have been stored in on every way to it.  The slots
that it reads are among them, unless they need no store or it stores in them itself. -/
structure Provides (table : SymbolTable) (exempt : Set Variable) (given : BlockId → Set Variable)
    (f : Function) : Prop where
  entry : given f.entry = ∅
  edges : ∀ {j n v}, f.Edge j n → v ∈ given n → table.isTemporary v.symbol = false →
    v ∈ given j ∪ stored (f.instructionsOf j)
  reads : ∀ {j block}, f.block? j = some block →
    ReadsStored table (exempt ∪ given j) block.instructions

namespace Provides

variable {exempt : Set Variable} {given : BlockId → Set Variable} {f g : Function}
  {id n : BlockId}

section

variable (h : f.Provides table exempt given)

include h

theorem mem_of_leads (ha : f.Agrees) {s t : BlockId}
    (hlead : f.Leads s t) (hv : v ∈ given t) (hlasting : table.isTemporary v.symbol = false) :
    v ∈ given s := by
  induction hlead with
  | here => exact hv
  | @proxy j k t block hb hp _ ih =>
    have hedge : f.Edge j k :=
      (edge_of_block? hb).2 ((ha hb).mem_successors (jumpsTo_of_proxyTarget? hp))
    refine (h.edges hedge (ih hv) hlasting).resolve_right ?_
    rw [instructionsOf_of_block? hb]
    rintro ⟨value, ty, hmem⟩
    rcases instructions_of_proxyTarget? hp with hl | ⟨i, hl⟩ <;> simp [hl] at hmem

theorem rewrite (ha : f.Agrees)
    (hrw : f.Rewrite table used id g) : g.Provides table exempt given := by
  obtain ⟨block, new, hb, hrw, rfl⟩ := hrw
  have hthins := hrw.thins (ha hb)
  refine ⟨h.entry, ?_, ?_⟩
  · intro j n v hedge hv hlasting
    obtain ⟨other, hother, hn⟩ := exists_block?_of_edge hedge
    rw [instructionsOf_of_block? hother]
    rw [block?_setBlock hb] at hother
    split at hother
    · rename_i hj
      subst hj
      cases hother
      obtain ⟨s, hs, hlead⟩ := hrw.successors (ha hb) hn
      have hstored := h.edges ((edge_of_block? hb).2 hs) (h.mem_of_leads ha hlead hv hlasting)
        hlasting
      rw [instructionsOf_of_block? hb] at hstored
      exact hstored.imp id fun hv => hthins.stored hlasting hv
    · have hstored := h.edges ((edge_of_block? hother).2 hn) hv hlasting
      rwa [instructionsOf_of_block? hother] at hstored
  · intro j other hother
    refine forall_setBlock hb
      (Q := fun j b => ReadsStored table (exempt ∪ given j) b.instructions) h.reads ?_ hother
    exact hthins.readsStored (fun _ hv _ => hv) (h.reads hb)

theorem rounds (hf : f.WellFormed table)
    (hrounds : f.Rounds table g) : g.Provides table exempt given := by
  induction hrounds with
  | refl => exact h
  | @tail k g hrounds hround ih =>
    have hk : k.WellFormed table := (hf.rounds hrounds).1
    obtain ⟨-, hg⟩ := RewritesIn.keep hround
      (P := fun g => g.Agrees ∧ g.Provides table exempt given)
      (fun _ hrw hg => ⟨Agrees.rewrite hg.1 hrw, hg.2.rewrite hg.1 hrw⟩) ⟨hk.agrees, ih⟩
    exact hg

/-- What is live at the start of a block needs no store, or has been stored in. -/
theorem mem_of_entering (hc : f.Acyclic)
    (ht : f.Tidied table) {entering leaving : BlockId → VariableSet}
    (hl : f.Lives entering leaving) (hv : v ∈ entering id) : v ∈ exempt ∪ given id := by
  -- from the exit backwards: what a block behind is given comes from here or from before
  induction id using hc.induction with
  | _ id ih =>
    have hlasting := hl.isTemporary_eq_false hc ht (.inl hv)
    by_cases hid : id ∈ f.preorder
    · rw [hl.entering_eq hid] at hv
      have hreads : ReadsStored table (exempt ∪ given id) (f.instructionsOf id) := by
        cases hb : f.block? id with
        | none =>
          rw [instructionsOf, hb]
          trivial
        | some block =>
          rw [instructionsOf_of_block? hb]
          exact h.reads hb
      rcases hreads.mem_of_live hlasting hv with hready | ⟨hleaving, hstored⟩
      · exact hready
      · obtain ⟨n, hn, hv⟩ := (hl.leaving_iff hid).1 hleaving
        refine (ih n hn hv).imp_right fun hv => ?_
        exact (h.edges hn hv hlasting).resolve_right hstored
    · rw [(hl.outside hid).1] at hv
      exact absurd hv Std.ExtTreeSet.not_mem_empty

theorem exempt_of_live (hc : f.Acyclic)
    (ht : f.Tidied table) {entering leaving : BlockId → VariableSet}
    (hl : f.Lives entering leaving) (hv : v ∈ entering f.entry) : v ∈ exempt := by
  refine (h.mem_of_entering hc ht hl hv).resolve_right ?_
  rw [h.entry]
  exact Set.notMem_empty v

/-- Along a path, what its end is given was given at its start, or is stored on the way. -/
theorem mem_of_path {path : List BlockId} {start : BlockId}
    (hpath : (start :: path).IsChain f.Edge) (hlast : (start :: path).getLast? = some n)
    (hv : v ∈ given n) (hlasting : table.isTemporary v.symbol = false) :
    v ∈ given start ∨ ∃ id ∈ start :: path, v ∈ stored (f.instructionsOf id) := by
  induction path generalizing start with
  | nil =>
    cases hlast
    exact .inl hv
  | cons next path ih =>
    rw [List.isChain_cons_cons] at hpath
    rw [List.getLast?_cons_cons] at hlast
    rcases ih hpath.2 hlast with hgiven | ⟨id, hid, hstored⟩
    · refine (h.edges hpath.1 hgiven hlasting).imp id fun hstored => ?_
      exact ⟨start, List.mem_cons_self, hstored⟩
    · exact .inr ⟨id, List.mem_cons_of_mem _ hid, hstored⟩

end

end Provides

theorem WellFormed.returning_rounds {f g : Function} {value slot : Variable} {ty : Ty}
    (hf : f.WellFormed table) (h : f.block? f.exit = some (.returning f.exit value slot ty))
    (hrounds : f.Rounds table g) : g.block? g.exit = some (.returning g.exit value slot ty) := by
  induction hrounds with
  | refl => exact h
  | @tail k g hrounds hround ih =>
    have hk : k.WellFormed table := (hf.rounds hrounds).1
    obtain ⟨-, hg⟩ := RewritesIn.keep hround
      (P := fun g => g.Confined (· ∈ k.preorder) (k.usedBy k.preorder) ∧
        g.block? g.exit = some (.returning g.exit value slot ty))
      (by
        rintro id g _ hid hrw ⟨hconf, hg⟩
        refine ⟨hconf.rewrite hrw, ?_⟩
        obtain ⟨block, new, hb, hrw, rfl⟩ := hrw
        rw [setBlock_exit, block?_setBlock hb]
        split
        · rename_i hexit
          subst hexit
          cases hb.symm.trans hg
          have hused : value ∈ k.usedBy k.preorder :=
            hconf.uses hid hb (i := .ret (some (.var value, ty))) (by simp [Block.returning])
              (by simp [Instruction.uses, Instruction.operands, Operand.toVariable?])
          rw [hrw.eq_returning hused]
        · exact hg)
      ⟨hk.linked.confined hk.agrees, ih⟩
    exact hg

end Function

end Cinder.Flow
