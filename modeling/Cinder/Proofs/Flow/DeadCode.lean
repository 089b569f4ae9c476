import Cinder.Flow.Pass.DeadCode
import Cinder.Proofs.Flow.Rewriting
import Cinder.Proofs.Flow.Temporaries

/-!
# Removing dead code

The two runs hold the same values in all variables that some reachable
instruction reads.  An instruction that is dropped writes none of them, and
instructions behind a jump are never run.
-/

namespace Cinder.Flow

variable {env' : Env} {s t : State} {calls : Calls} {es : List Event}

variable {table : SymbolTable} {used : VariableSet}

variable {env env' : Env} {f : Function}

theorem Operand.value_congr {o : Operand} (h : ∀ v, o.toVariable? = some v → env' v = env v) :
    o.value env' = o.value env := by
  cases o with
  | constant c => rfl
  | var v => exact h v rfl

theorem Env.set_congr {u v : Variable} {c : Constant} (h : env' v = env v) :
    env'.set u c v = env.set u c v := by
  unfold set
  split
  · rfl
  · exact h

theorem Env.receive_congr {result : Option Variable} {value : Option Constant} {v : Variable}
    (h : env' v = env v) : env'.receive result value v = env.receive result value v := by
  cases result with
  | none => exact h
  | some u =>
    cases value with
    | none => exact h
    | some c => exact Env.set_congr h

namespace Instruction

theorem value_congr_of_uses {env : Env} {i : Instruction} (h : ∀ v ∈ i.uses, env' v = env v)
    {o : Operand} (ho : o ∈ i.operands) :
    o.value env' = o.value env :=
  Operand.value_congr fun v hv => h v (List.mem_filterMap.2 ⟨o, ho, hv⟩)

/-- Where an effect takes place depends only on what is read, and it carries
agreement over. -/
theorem effect_congr {env e : Env} {i : Instruction} (h : ∀ v ∈ i.uses, env' v = env v)
    (heffect : i.effect env = some e) :
    ∃ e', i.effect env' = some e' ∧ ∀ v, env' v = env v → e' v = e v := by
  cases i with
  | label => cases heffect; exact ⟨env', rfl, fun _ hv => hv⟩
  | alloca => cases heffect; exact ⟨env', rfl, fun _ hv => hv⟩
  | goto => cases heffect
  | branch => cases heffect
  | call => cases heffect
  | ret => cases heffect
  | binary result lhs op rhs operandTy resultTy =>
    have hlhs := value_congr_of_uses h (o := lhs) (by simp [operands])
    have hrhs := value_congr_of_uses h (o := rhs) (by simp [operands])
    obtain ⟨c, hc, rfl⟩ := Option.map_eq_some_iff.1 heffect
    refine ⟨env'.set result c, ?_, fun _ hv => Env.set_congr hv⟩
    simp only [effect, hlhs, hrhs, hc, Option.map_some]
  | cast result source sourceTy targetTy =>
    have hsource := value_congr_of_uses h (o := source) (by simp [operands])
    cases heffect
    exact ⟨_, rfl, fun _ hv => by rw [hsource]; exact Env.set_congr hv⟩
  | store destination value ty =>
    have hvalue := value_congr_of_uses h (o := value) (by simp [operands])
    cases heffect
    exact ⟨_, rfl, fun _ hv => by rw [hvalue]; exact Env.set_congr hv⟩
  | load result source ty =>
    have hsource := value_congr_of_uses h (o := .var source) (by simp [operands])
    cases heffect
    refine ⟨_, rfl, fun _ hv => ?_⟩
    rw [show env' source = env source from hsource]
    exact Env.set_congr hv

end Instruction

theorem Function.exists_enter {f' : Function}
    (hblocks : ∀ {j block}, f.block? j = some block → ∃ block', f'.block? j = some block')
    {j : BlockId} (h : f.enter j env = some s) (env' : Env) :
    ∃ s', f'.enter j env' = some s' := by
  obtain ⟨block, hblock, -⟩ := Option.map_eq_some_iff.1 h
  obtain ⟨block', hblock'⟩ := hblocks hblock
  exact ⟨_, by rw [enter, hblock']; rfl⟩

theorem Step.congr {f' : Function}
    (hblocks : ∀ {j block}, f.block? j = some block → ∃ block', f'.block? j = some block')
    {id : BlockId} {i : Instruction} {rest : List Instruction}
    (h : Step calls f ⟨id, i :: rest, env⟩ es t) (huses : ∀ v ∈ i.uses, env' v = env v)
    (rest' : List Instruction) :
    (∃ e e', i.After env e ∧ t = ⟨id, rest, e⟩ ∧ (∀ v, env' v = env v → e' v = e v) ∧
      Step calls f' ⟨id, i :: rest', env'⟩ es ⟨id, rest', e'⟩) ∨
    ∃ j t', i.jumpsTo j = true ∧ f.enter j env = some t ∧ f'.enter j env' = some t' ∧
      Step calls f' ⟨id, i :: rest', env'⟩ es t' := by
  cases h with
  | plain h =>
    obtain ⟨e', heffect, hagree⟩ := Instruction.effect_congr huses h
    refine .inl ⟨_, e', ?_, rfl, hagree, .plain heffect⟩
    cases i with
    | branch => cases h
    | call => cases h
    | _ => exact h
  | goto h =>
    obtain ⟨u', hu'⟩ := Function.exists_enter hblocks h env'
    exact .inr ⟨_, u', by simp [Instruction.jumpsTo], h, hu', .goto hu'⟩
  | @taken _ condition _ _ _ _ hc h =>
    have hvalue : condition.value env' = condition.value env :=
      Instruction.value_congr_of_uses huses (by simp [Instruction.operands])
    obtain ⟨u', hu'⟩ := Function.exists_enter hblocks h env'
    exact .inr ⟨_, u', by simp [Instruction.jumpsTo], h, hu', .taken (hvalue ▸ hc) hu'⟩
  | @passed _ condition _ _ _ hc =>
    have hvalue : condition.value env' = condition.value env :=
      Instruction.value_congr_of_uses huses (by simp [Instruction.operands])
    exact .inl ⟨_, _, rfl, rfl, fun _ hv => hv, .passed (hvalue ▸ hc)⟩
  | @call _ result callee arguments _ _ events value h =>
    have hvalues : arguments.map (Operand.value env') = arguments.map (Operand.value env) :=
      List.map_congr_left fun o ho => Instruction.value_congr_of_uses huses ho
    refine .inl ⟨_, _, ⟨value, rfl⟩, rfl, fun _ hv => Env.receive_congr hv, ?_⟩
    rw [← hvalues] at h ⊢
    exact .call h

/-! ## Cutting and sweeping -/

theorem takeThrough_of_not_any {α : Type} {p : α → Bool} {l : List α} (h : l.any p = false) :
    takeThrough p l = l := by
  induction l with
  | nil => rfl
  | cons a rest ih =>
    rw [List.any_cons, Bool.or_eq_false_iff] at h
    simp [takeThrough, h.1, ih h.2]

namespace Block

def keeps (table : SymbolTable) (used : VariableSet) (i : Instruction) : Bool :=
  i.hasSideEffect table || i.definition.all used.contains

def pruned (table : SymbolTable) (used : VariableSet) (l : List Instruction) : List Instruction :=
  (takeThrough Instruction.isTerminator l).filter (keeps table used)

theorem instructions_prune (block : Block) :
    (block.prune table used).instructions = pruned table used block.instructions := by
  unfold prune sweep cut pruned
  split
  · rfl
  · rename_i h
    rw [takeThrough_of_not_any (by simpa using h)]
    rfl

theorem next_prune {block : Block} (h : block.instructions.any Instruction.isTerminator = false) :
    (block.prune table used).next = block.next := by
  unfold prune sweep cut
  rw [if_neg (by simp [h])]

variable {i : Instruction} {rest : List Instruction}

theorem pruned_cons_of_keeps (hi : i.isTerminator = false) (hk : keeps table used i = true) :
    pruned table used (i :: rest) = i :: pruned table used rest := by
  simp [pruned, takeThrough, hi, hk]

theorem pruned_cons_of_drops (hi : i.isTerminator = false) (hk : keeps table used i = false) :
    pruned table used (i :: rest) = pruned table used rest := by
  simp [pruned, takeThrough, hi, hk]

theorem pruned_cons_of_terminator (hi : i.isTerminator = true) :
    pruned table used (i :: rest) = [i] := by
  have hk : keeps table used i = true := by
    cases i <;> simp_all [Instruction.isTerminator, keeps, Instruction.hasSideEffect]
  simp [pruned, takeThrough, hi, hk]

/-- An instruction is dropped only if it writes a variable that nobody reads. -/
theorem exists_definition_of_drops (h : keeps table used i = false) :
    ∃ v, i.definition = some v ∧ v ∉ used := by
  simp only [keeps, Bool.or_eq_false_iff] at h
  cases hdef : i.definition with
  | none => simp [hdef] at h
  | some v =>
    refine ⟨v, rfl, fun hv => ?_⟩
    simp [hdef, Std.ExtTreeSet.mem_iff_contains.1 hv] at h

end Block

/-- What is dropped neither jumps nor calls. -/
theorem Step.of_drops {id : BlockId} {i : Instruction} {rest : List Instruction}
    (h : Step calls f ⟨id, i :: rest, env⟩ es t) (hk : Block.keeps table used i = false) :
    ∃ e, i.After env e ∧ t = ⟨id, rest, e⟩ ∧ es = [] ∧ i.isTerminator = false := by
  simp only [Block.keeps, Bool.or_eq_false_iff] at hk
  cases h with
  | plain h =>
    have hafter := Instruction.After.of_effect h
    exact ⟨_, hafter, rfl, rfl, hafter.isTerminator⟩
  | goto => simp [Instruction.hasSideEffect] at hk
  | taken => simp [Instruction.hasSideEffect] at hk
  | passed => simp [Instruction.hasSideEffect] at hk
  | call => simp [Instruction.hasSideEffect] at hk

namespace Function

/-- A set of blocks that a run cannot leave, and the variables read in them. -/
structure Confined (f : Function) (inside : BlockId → Prop) (used : VariableSet) : Prop where
  entry : inside f.entry
  next : ∀ {j block n}, inside j → f.block? j = some block → block.next = some n → inside n
  jumps : ∀ {j block i n}, inside j → f.block? j = some block → i ∈ block.instructions →
    i.jumpsTo n = true → inside n
  uses : ∀ {j block i v}, inside j → f.block? j = some block → i ∈ block.instructions →
    v ∈ i.uses → v ∈ used

section

variable {f : Function} {id : BlockId} {block : Block} {inside : BlockId → Prop}

/-- The states that correspond when a block is pruned. -/
structure Pruned (f : Function) (table : SymbolTable) (used : VariableSet) (id : BlockId)
    (inside : BlockId → Prop) (s s' : State) : Prop where
  block : s'.block = s.block
  inside : inside s.block
  rest : s'.rest = if s.block = id then Block.pruned table used s.rest else s.rest
  agree : ∀ v ∈ used, s'.env v = s.env v
  position : ∃ block done, f.block? s.block = some block ∧ block.instructions = done ++ s.rest ∧
    done.any Instruction.isTerminator = false

theorem pruned_enter (hb : f.block? id = some block) {j : BlockId} (hj : inside j) {env : Env}
    (hagree : ∀ v ∈ used, env' v = env v) {s' : State} (h : f.enter j env = some s)
    (h' : (f.setBlock id (block.prune table used)).enter j env' = some s') :
    Pruned f table used id inside s s' := by
  rw [enter_setBlock hb (g := Block.pruned table used) block.instructions_prune] at h'
  obtain ⟨other, hother, rfl⟩ := Option.map_eq_some_iff.1 h
  rw [enter, hother] at h'
  cases h'
  exact ⟨rfl, hj, rfl, hagree, other, [], hother, rfl, rfl⟩

theorem pruned_step (hb : f.block? id = some block) (hconf : f.Confined inside used) {s' : State}
    (hstep : Step calls f s es t) (hR : Pruned f table used id inside s s') :
    ∃ t', Steps calls (f.setBlock id (block.prune table used)) s' es t' ∧
      Pruned f table used id inside t t' := by
  have hblocks : ∀ {j old}, f.block? j = some old →
      ∃ new, (f.setBlock id (block.prune table used)).block? j = some new := by
    intro j old hold
    rw [block?_setBlock hb]
    split
    · exact ⟨_, rfl⟩
    · exact ⟨_, hold⟩
  obtain ⟨b, rest, env⟩ := s
  obtain ⟨b', rest', env'⟩ := s'
  obtain ⟨hblock, hin, hrest, hagree, old, done, hold, hsplit, hdone⟩ := hR
  dsimp only at hblock hin hrest hagree hold hsplit
  subst hblock
  cases rest with
  | nil =>
    -- the end of the block: no jump was on the way, so the link has not been mended
    have hrest' : rest' = [] := by rw [hrest]; simp [Block.pruned, takeThrough]
    subst hrest'
    cases hstep with
    | fall hold' hn h =>
      rw [hold] at hold'
      cases hold'
      have hnext : ∃ new, (f.setBlock id (block.prune table used)).block? b' = some new ∧
          new.next = old.next := by
        rw [block?_setBlock hb]
        split
        · rename_i hid
          rw [hid, hb] at hold
          cases hold
          rw [List.append_nil] at hsplit
          exact ⟨_, rfl, Block.next_prune (hsplit ▸ hdone)⟩
        · exact ⟨_, hold, rfl⟩
      obtain ⟨new, hnew, hlink⟩ := hnext
      obtain ⟨t', h'⟩ := exists_enter hblocks h env'
      exact ⟨t', .single (.fall hnew (hlink.trans hn) h'),
        pruned_enter hb (hconf.next hin hold hn) hagree h h'⟩
  | cons i rest =>
    have hmem : i ∈ old.instructions := by simp [hsplit]
    have huses : ∀ v ∈ i.uses, env' v = env v :=
      fun v hv => hagree v (hconf.uses hin hold hmem hv)
    by_cases hdrop : b' = id ∧ Block.keeps table used i = false
    · -- the instruction is dropped: what it writes is not compared
      obtain ⟨hid, hk⟩ := hdrop
      obtain ⟨e, hafter, rfl, rfl, hi⟩ := hstep.of_drops hk
      obtain ⟨v, hdef, hv⟩ := Block.exists_definition_of_drops hk
      rw [if_pos hid, Block.pruned_cons_of_drops hi hk] at hrest
      refine ⟨_, .refl, rfl, hin, ?_, ?_, old, done ++ [i], hold, by simpa using hsplit, ?_⟩
      · rw [if_pos hid]
        exact hrest
      · intro u hu
        have hne : i.definition ≠ some u := by
          rw [hdef]
          exact fun h => hv (Option.some.inj h ▸ hu)
        exact (hagree u hu).trans (hafter.frame hne).symm
      · simp [hdone, hi]
    · obtain ⟨rest'', rfl, hrest''⟩ : ∃ rest'', rest' = i :: rest'' ∧
          (i.isTerminator = false →
            rest'' = if b' = id then Block.pruned table used rest else rest) := by
        by_cases hid : b' = id
        · have hk : Block.keeps table used i = true := by
            simpa [hid] using hdrop
          rw [if_pos hid] at hrest ⊢
          cases hi : i.isTerminator with
          | true => exact ⟨[], hrest.trans (Block.pruned_cons_of_terminator hi), by simp⟩
          | false => exact ⟨_, hrest.trans (Block.pruned_cons_of_keeps hi hk), fun _ => rfl⟩
        · rw [if_neg hid] at hrest ⊢
          exact ⟨rest, hrest, fun _ => rfl⟩
      rcases hstep.congr hblocks huses rest'' with
        ⟨e, e', hafter, rfl, hcarry, hstep'⟩ | ⟨j, t', hjump, hent, hent', hstep'⟩
      · have hi := hafter.isTerminator
        refine ⟨_, .single hstep', rfl, hin, hrest'' hi, fun v hv => hcarry v (hagree v hv),
          old, done ++ [i], hold, by simpa using hsplit, by simp [hdone, hi]⟩
      · exact ⟨t', .single hstep',
          pruned_enter hb (hconf.jumps hin hold hmem hjump) hagree hent hent'⟩

theorem refines_prune (hb : f.block? id = some block) (hconf : f.Confined inside used) :
    f.Refines (f.setBlock id (block.prune table used)) := by
  refine Simulation.refines (R := Pruned f table used id inside) ⟨?_, ?_, ?_⟩ rfl
  · intro init arguments s hstart
    have hstart' := start_setBlock hb (g := Block.pruned table used) block.instructions_prune
      init arguments
    rw [hstart] at hstart'
    exact ⟨_, hstart', pruned_enter hb hconf.entry (fun _ _ => rfl) hstart hstart'⟩
  · exact pruned_step hb hconf
  · intro calls s value s' hs hR
    obtain ⟨b, rest, env⟩ := s
    obtain ⟨b', rest', env'⟩ := s'
    obtain ⟨hblock, hin, hrest, hagree, old, done, hold, hsplit, hdone⟩ := hR
    obtain ⟨result, rest'', hs, rfl⟩ := hs
    dsimp only at hblock hin hrest hagree hold hsplit hs
    subst hs
    have hrest' : ∃ tail, rest' = .ret result :: tail := by
      rw [hrest]
      split
      · exact ⟨[], Block.pruned_cons_of_terminator rfl⟩
      · exact ⟨rest'', rfl⟩
    obtain ⟨tail, rfl⟩ := hrest'
    refine ⟨_, .refl, result, tail, rfl, ?_⟩
    cases result with
    | none => rfl
    | some p =>
      have hvalue : p.1.value env' = p.1.value env := Operand.value_congr fun v hv =>
        hagree v (hconf.uses hin hold (i := .ret (some p)) (by simp [hsplit])
          (List.mem_filterMap.2 ⟨p.1, by simp [Instruction.operands], hv⟩))
      simp [hvalue]

end

end Function

/-! ## What pruning keeps -/

theorem takeThrough_prefix {α : Type} (p : α → Bool) (l : List α) : takeThrough p l <+: l := by
  induction l with
  | nil => exact List.prefix_refl _
  | cons a rest ih =>
    unfold takeThrough
    split
    · exact List.cons_prefix_cons.2 ⟨rfl, List.nil_prefix⟩
    · exact List.cons_prefix_cons.2 ⟨rfl, ih⟩

theorem Block.tidy_prune {block : Block}
    (huses : ∀ i ∈ block.instructions, ∀ v ∈ i.uses, v ∈ used)
    (h : Tidy table block.instructions) : Tidy table (block.prune table used).instructions := by
  rw [instructions_prune]
  obtain ⟨tail, htail⟩ := takeThrough_prefix Instruction.isTerminator block.instructions
  rw [← htail] at h
  refine h.of_append_left.filter ?_
  intro i _ hk v hdef j hj hjv
  obtain ⟨u, hdef', hu⟩ := exists_definition_of_drops hk
  have hvu : v = u := Option.some.inj (hdef.symm.trans hdef')
  have hmem : j ∈ block.instructions := by
    rw [← htail]
    exact List.mem_append_left _ hj
  exact hu (hvu ▸ huses j hmem v hjv)

end Cinder.Flow
