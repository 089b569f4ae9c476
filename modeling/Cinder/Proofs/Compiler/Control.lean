import Cinder.Proofs.Flow.Acyclic
import Cinder.Proofs.Flow.Translation

/-!
# Control flow is told the same way twice

Where a block goes is said by its instructions and by its links.  In a lowered
function the two say the same at every point between two visits of a pass, and the
blocks form a graph without circles whose only way out is the exit.
-/

namespace Cinder

open Cinder.Flow

namespace Flow

def Instruction.isJump : Instruction → Bool
  | .goto _ => true
  | .branch _ _ => true
  | .ret _ => true
  | _ => false

/-- The block starts with its only label, jumps at its end if anywhere, and its end
asks for just the links it has. -/
structure Block.Consistent (exit id : BlockId) (block : Block) : Prop where
  label : ∃ rest, block.instructions = .label id :: rest ∧ ∀ j, .label j ∉ rest
  jumps : ∀ i ∈ block.instructions.dropLast, i.isJump = false
  goto : ∀ {t}, block.instructions.getLast? = some (.goto t) →
    block.next = some t ∧ block.branch = none
  branch : ∀ {condition t}, block.instructions.getLast? = some (.branch condition t) →
    block.branch = some t ∧ ∃ n, block.next = some n
  ret : ∀ {value}, block.instructions.getLast? = some (.ret value) →
    id = exit ∧ block.successors = []
  fall : (∀ i, block.instructions.getLast? = some i → i.isJump = false) →
    (∃ n, block.next = some n) ∧ block.branch = none

theorem Instruction.isJump_of_isPlain {i : Instruction} (h : i.isPlain = true) :
    i.isJump = false := by
  cases i with
  | goto => cases h
  | branch => cases h
  | ret => cases h
  | _ => rfl

theorem isJump_of_mem_dropLast {id : BlockId} {body : List Instruction} {last : Instruction}
    (hbody : ∀ i ∈ body, i.isPlain = true) :
    ∀ i ∈ (.label id :: (body ++ [last]) : List Instruction).dropLast, i.isJump = false := by
  intro i hi
  rw [← List.cons_append, List.dropLast_concat] at hi
  rcases List.mem_cons.1 hi with rfl | hi
  · rfl
  · exact Instruction.isJump_of_isPlain (hbody i hi)

theorem label_not_mem {body rest : List Instruction} (hbody : ∀ i ∈ body, i.isPlain = true)
    {j : BlockId} (hrest : .label j ∉ rest) : .label j ∉ body ++ rest := by
  intro h
  rcases List.mem_append.1 h with h | h
  · cases hbody _ h
  · exact hrest h

theorem Block.Agrees.consistent {exit id : BlockId} {block : Block} (h : block.Agrees exit id) :
    block.Consistent exit id := by
  have hlast : ∀ (body : List Instruction) (last : Instruction),
      (.label id :: (body ++ [last]) : List Instruction).getLast? = some last := by
    intro body last
    rw [← List.cons_append, List.getLast?_concat]
  cases h with
  | @fall body next hexit hbody =>
    have hjump : ∀ i ∈ (.label id :: body : List Instruction), i.isJump = false := by
      intro i hi
      rcases List.mem_cons.1 hi with rfl | hi
      · rfl
      · exact Instruction.isJump_of_isPlain (hbody i hi)
    have hend : ∀ {i}, (.label id :: body : List Instruction).getLast? = some i →
        i.isJump = false := fun h => hjump _ (List.mem_of_getLast? h)
    refine ⟨⟨body, rfl, fun j hj => ?_⟩, fun i hi => hjump i (List.dropLast_subset _ hi),
      ?_, ?_, ?_,
      fun _ => ⟨⟨next, rfl⟩, rfl⟩⟩
    · cases hbody _ hj
    · intro t h
      cases hend h
    · intro condition t h
      cases hend h
    · intro value h
      cases hend h
  | @goto body target hexit hbody =>
    refine ⟨⟨_, rfl, fun j => label_not_mem hbody (by simp)⟩, isJump_of_mem_dropLast hbody, ?_, ?_,
      ?_, ?_⟩
    · intro t h
      cases (hlast body _).symm.trans h
      exact ⟨rfl, rfl⟩
    · intro condition t h
      cases (hlast body _).symm.trans h
    · intro value h
      cases (hlast body _).symm.trans h
    · intro h
      cases h _ (hlast body _)
  | @branch body condition target next hexit hbody =>
    refine ⟨⟨_, rfl, fun j => label_not_mem hbody (by simp)⟩, isJump_of_mem_dropLast hbody, ?_, ?_,
      ?_, ?_⟩
    · intro t h
      cases (hlast body _).symm.trans h
    · intro condition t h
      cases (hlast body _).symm.trans h
      exact ⟨rfl, next, rfl⟩
    · intro value h
      cases (hlast body _).symm.trans h
    · intro h
      cases h _ (hlast body _)
  | @ret body value hexit hbody =>
    refine ⟨⟨_, rfl, fun j => label_not_mem hbody (by simp)⟩, isJump_of_mem_dropLast hbody, ?_, ?_,
      fun _ => ⟨hexit, rfl⟩, ?_⟩
    · intro t h
      cases (hlast body _).symm.trans h
    · intro condition t h
      cases (hlast body _).symm.trans h
    · intro h
      cases h _ (hlast body _)

theorem Block.Agrees.ret_iff {exit id : BlockId} {block : Block} (h : block.Agrees exit id) :
    (∃ value, .ret value ∈ block.instructions) ↔ id = exit := by
  have hplain : ∀ {body : List Instruction} {value}, (∀ i ∈ body, i.isPlain = true) →
      .ret value ∉ body := fun hbody h => by cases hbody _ h
  cases h with
  | fall hexit hbody =>
    refine iff_of_false ?_ hexit
    rintro ⟨value, h⟩
    simp [hplain hbody] at h
  | goto hexit hbody =>
    refine iff_of_false ?_ hexit
    rintro ⟨value, h⟩
    simp [hplain hbody] at h
  | branch hexit hbody =>
    refine iff_of_false ?_ hexit
    rintro ⟨value, h⟩
    simp [hplain hbody] at h
  | @ret body value hexit hbody => exact iff_of_true ⟨value, by simp⟩ hexit

theorem Function.Linked.lt_of_reachable {f : Function} (hl : f.Linked) {b : BlockId}
    (h : f.Reachable b) : b < f.blocks.size := by
  induction h with
  | refl => exact hl.entry
  | tail _ h _ => exact hl.successors_lt h

theorem Function.partway_of_round {passes : List Pass} {table : SymbolTable} {f g : Function}
    {changes : List Change} (h : f.round passes table = .ok (g, changes)) :
    f.Partway passes table g := by
  obtain ⟨order, horder, h⟩ := bind_eq_ok.1 h
  obtain ⟨used, hused, h⟩ := bind_eq_ok.1 h
  exact ⟨order, used, _, [], changes, horder, hused, (List.append_nil _).symm, h⟩

end Flow

/-- At every point between two visits of a pass, in every function of an accepted
program: links and instructions agree in the blocks that the entry reaches, no block
is behind itself, and the exit is reached and is the only block that returns. -/
theorem Program.consistent_underway {text : String} {program : Program.Typed}
    {table : SymbolTable} {m : Module} (hsource : Program.ofSource text = .ok (program, table))
    (hlower : program.lower table = .ok m) (hfit : m.Addressable) {f : Function}
    (hf : f ∈ m.functions) {g : Function} (hg : f.Underway m.symbols g) :
    (∀ b, g.Reachable b → ∃ block, g.block? b = some block ∧ block.Consistent g.exit b ∧
      ((∃ value, .ret value ∈ block.instructions) ↔ b = g.exit)) ∧
    (∀ b, g.Reachable b → ¬ Relation.TransGen g.Edge b b) ∧ g.Reachable g.exit := by
  have hwf := Program.wellFormed_of_lower hsource hlower hfit f hf
  have hrounds := hwf.linked.rounds_of_underway hg
  have hg := (hwf.rounds hrounds).1
  have hc := hwf.acyclic_rounds (Program.acyclic_of_lower hsource hlower hfit f hf) hrounds
  refine ⟨fun b hb => ?_, fun b _ => hc.not_transGen b,
    hc.reaches_exit hg.agrees hg.linked hg.linked.entry⟩
  obtain ⟨block, hblock⟩ := Function.exists_block? (hg.linked.lt_of_reachable hb)
  exact ⟨block, hblock, (hg.agrees hblock).consistent, (hg.agrees hblock).ret_iff⟩

/-- A round of all passes decides the jump of this function. -/
theorem Program.consistent_underway_if :
    ∃ program table m f g,
      Program.ofSource "fun f() @u8:\n    if 1 < 2:\n        return 1\n    return 2\n" =
          .ok (program, table) ∧
        program.lower table = .ok m ∧ m.Addressable ∧ f ∈ m.functions ∧
        f.Underway m.symbols g ∧ g ≠ f ∧ g.Reachable g.exit := by
  generalize htext : "fun f() @u8:\n    if 1 < 2:\n        return 1\n    return 2\n" = text
  have hrun : (Program.examine text fun _ m => m.functions.head?.bind fun f =>
      (f.round Pass.all m.symbols).toOption.map fun r => decide (r.1 = f)) =
      some (11, false) := by
    rw [← htext, Program.examine, Program.ofSource, Program.parse, tokenize_ofList]
    decide +kernel
  obtain ⟨program, table, m, hsource, -, hlower, hfit, hrun⟩ :=
    Program.exists_of_examine hrun (by decide)
  obtain ⟨f, hf, hrun⟩ := Option.bind_eq_some_iff.1 hrun
  obtain ⟨⟨g, changes⟩, hround, hne⟩ := Option.map_eq_some_iff.1 hrun
  rw [toOption_eq_some] at hround
  rw [decide_eq_false_iff_not] at hne
  have hf := List.mem_of_mem_head? hf
  have hg : f.Underway m.symbols g := ⟨f, _, .refl, Function.partway_of_round hround⟩
  exact ⟨program, table, m, f, g, hsource, hlower, hfit, hf, hg, hne,
    (Program.consistent_underway hsource hlower hfit hf hg).2.2⟩

end Cinder
