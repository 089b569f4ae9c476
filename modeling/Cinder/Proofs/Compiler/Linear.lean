import Cinder.Proofs.Compiler.Control

/-!
# Running the linear form

The blocks of a function can be walked along their links, or written one behind the
other and run from top to bottom, with jumps that look for their label.  Both ways meet
the same instructions; the linear form only has a few jumps more, where a block goes on
to one that is not the next in the list.
-/

namespace Cinder.Flow

/-! ## Two ways to run a function -/

structure Runner (σ : Type) where
  /-- The instruction that control is at. -/
  instruction? : σ → Option Instruction
  /-- Where control goes from there.  It stays at a return. -/
  advance : σ → Option σ

/-- What an instruction leaves behind in the trace of a run. -/
def Instruction.trace : Instruction → List Instruction
  | .goto _ => []
  | i => [i]

/-- The instructions that are run from one state to another, jumps apart. -/
inductive Runner.Runs {σ : Type} (runner : Runner σ) : σ → List Instruction → σ → Prop where
  | refl (s : σ) : Runs runner s [] s
  | step {s t u i trace} (hi : runner.instruction? s = some i) (hnext : runner.advance s = some t)
      (hrest : Runs runner t trace u) : Runs runner s (i.trace ++ trace) u

theorem Runner.Runs.trans {σ : Type} {runner : Runner σ} {s t u : σ} {l l' : List Instruction}
    (h : runner.Runs s l t) (h' : runner.Runs t l' u) : runner.Runs s (l ++ l') u := by
  induction h with
  | refl => exact h'
  | step hi hnext _ ih =>
    rw [List.append_assoc]
    exact .step hi hnext (ih h')

/-- A place in the blocks of a function, and how many conditions were met on the way. -/
structure Spot where
  block : BlockId
  index : Nat := 0
  met : Nat := 0
deriving DecidableEq, Repr

structure Cursor where
  position : Nat := 0
  met : Nat := 0
deriving DecidableEq, Repr

/-- Walks the blocks along their links.  The conditions that are met hold as `choices`
says. -/
def Function.walker (f : Function) (choices : Nat → Bool) : Runner Spot where
  instruction? s := (f.instructionsOf s.block)[s.index]?
  advance s := do
    let block ← f.block? s.block
    match ← block.instructions[s.index]? with
    | .ret _ => none
    | .branch .. =>
      let target ← if choices s.met then block.branch else block.next
      return ⟨target, 0, s.met + 1⟩
    | _ =>
      if s.index + 1 < block.instructions.length then return ⟨s.block, s.index + 1, s.met⟩
      else return ⟨← block.next, 0, s.met⟩

/-- Runs instructions from top to bottom.  A jump that is taken goes to its label. -/
def reader (code : List Instruction) (choices : Nat → Bool) : Runner Cursor where
  instruction? c := code[c.position]?
  advance c := do
    match ← code[c.position]? with
    | .ret _ => none
    | .goto target => return ⟨← code.idxOf? (.label target), c.met⟩
    | .branch _ target =>
      if choices c.met then return ⟨← code.idxOf? (.label target), c.met + 1⟩
      else return ⟨c.position + 1, c.met + 1⟩
    | _ => return ⟨c.position + 1, c.met⟩

def Instruction.label? : Instruction → Option BlockId
  | .label id => some id
  | _ => none

/-! ## Links and instructions that agree -/

/-- The exit and the blocks that the entry reaches are consistent; the exit is not the
entry, and the only one of them that returns. -/
structure Function.Consistent (f : Function) : Prop where
  exit_ne : f.exit ≠ f.entry
  blocks : ∀ b, b = f.exit ∨ f.Reachable b → ∃ block, f.block? b = some block ∧
    block.Consistent f.exit b ∧ ((∃ value, .ret value ∈ block.instructions) ↔ b = f.exit)

theorem Instruction.isPlain_of_isJump {i : Instruction} (hjump : i.isJump = false)
    (hlabel : ∀ j, i ≠ .label j) : i.isPlain = true := by
  cases i with
  | label j => exact absurd rfl (hlabel j)
  | goto => cases hjump
  | branch => cases hjump
  | ret => cases hjump
  | _ => rfl

theorem Instruction.isTerminator_of_isJump {i : Instruction} (h : i.isJump = false) :
    i.isTerminator = false := by
  cases i with
  | goto => cases h
  | ret => cases h
  | _ => rfl

theorem Instruction.isBranch_of_isJump {i : Instruction} (h : i.isJump = false) :
    i.isBranch = false := by
  cases i with
  | branch => cases h
  | _ => rfl

theorem Block.Consistent.agrees {exit id : BlockId} {block : Block} (h : block.Consistent exit id)
    (hret : (∃ value, .ret value ∈ block.instructions) ↔ id = exit) : block.Agrees exit id := by
  obtain ⟨hlabel, hjumps, hgoto, hbranch, hreturn, hfall⟩ := h
  obtain ⟨instructions, next, branch⟩ := block
  dsimp only at hlabel hjumps hgoto hbranch hreturn hfall hret
  obtain ⟨rest, rfl, hlabel⟩ := hlabel
  have hexit : (∀ value, .ret value ∉ rest) → id ≠ exit := by
    rintro hnone rfl
    obtain ⟨value, hmem⟩ := hret.2 rfl
    rcases List.mem_cons.1 hmem with hmem | hmem
    · cases hmem
    · exact hnone value hmem
  rcases List.eq_nil_or_concat' rest with rfl | ⟨body, last, rfl⟩
  · obtain ⟨⟨n, rfl⟩, rfl⟩ := hfall fun i hi => by cases hi; rfl
    exact .fall (hexit fun _ => List.not_mem_nil) fun _ hi => absurd hi List.not_mem_nil
  · have hlast : (.label id :: (body ++ [last]) : List Instruction).getLast? = some last := by
      rw [← List.cons_append, List.getLast?_concat]
    rw [← List.cons_append, List.dropLast_concat] at hjumps
    have hbody : ∀ i ∈ body, i.isPlain = true := fun i hi =>
      Instruction.isPlain_of_isJump (hjumps i (List.mem_cons_of_mem _ hi)) fun j hj =>
        hlabel j (hj ▸ List.mem_append_left _ hi)
    have hnone : (∀ value, last ≠ .ret value) → id ≠ exit := by
      intro hne
      refine hexit fun value hmem => ?_
      rcases List.mem_append.1 hmem with hmem | hmem
      · cases hbody _ hmem
      · exact hne value (List.mem_singleton.1 hmem).symm
    by_cases hjump : last.isJump = true
    · cases last with
      | goto t =>
        obtain ⟨rfl, rfl⟩ := hgoto hlast
        exact .goto (hnone nofun) hbody
      | branch condition t =>
        obtain ⟨rfl, n, rfl⟩ := hbranch hlast
        exact .branch (hnone nofun) hbody
      | ret value =>
        obtain ⟨heq, hlinks⟩ := hreturn hlast
        obtain ⟨hnext, hbranch⟩ := List.append_eq_nil_iff.1 hlinks
        obtain rfl : next = none := Option.toList_eq_nil_iff.1 hnext
        obtain rfl : branch = none := Option.toList_eq_nil_iff.1 hbranch
        exact .ret heq hbody
      | _ => cases hjump
    · rw [Bool.not_eq_true] at hjump
      obtain ⟨⟨n, rfl⟩, rfl⟩ := hfall fun i hi => by
        cases hlast.symm.trans hi
        exact hjump
      refine .fall (hnone ?_) fun i hi => ?_
      · rintro value rfl
        cases hjump
      · rcases List.mem_append.1 hi with hi | hi
        · exact hbody i hi
        · rw [List.mem_singleton.1 hi]
          exact Instruction.isPlain_of_isJump hjump fun j hj =>
            hlabel j (hj ▸ List.mem_append_right _ List.mem_cons_self)

/-! ## Where the code of a block stands -/

def StandsAt (code : List Instruction) (position : Nat) (l : List Instruction) : Prop :=
  ∃ front back, code = front ++ (l ++ back) ∧ front.length = position

namespace StandsAt

variable {code l l' : List Instruction} {p n : Nat}

theorem getElem?_add (h : StandsAt code p l) (hn : n < l.length) : code[p + n]? = l[n]? := by
  obtain ⟨front, back, rfl, rfl⟩ := h
  rw [List.getElem?_append_right (Nat.le_add_right ..), Nat.add_sub_cancel_left,
    List.getElem?_append_left hn]

theorem append_left (h : StandsAt code p (l ++ l')) : StandsAt code p l := by
  obtain ⟨front, back, rfl, hp⟩ := h
  exact ⟨front, l' ++ back, by rw [List.append_assoc], hp⟩

theorem append_right (h : StandsAt code p (l ++ l')) : StandsAt code (p + l.length) l' := by
  obtain ⟨front, back, rfl, rfl⟩ := h
  refine ⟨front ++ l, back, ?_, List.length_append⟩
  simp only [List.append_assoc]

theorem idxOf?_label {id : BlockId} (h : StandsAt code p (.label id :: l))
    (hnodup : (code.filterMap Instruction.label?).Nodup) : code.idxOf? (.label id) = some p := by
  obtain ⟨front, back, rfl, rfl⟩ := h
  have hfront : .label id ∉ front := by
    intro hmem
    rw [List.filterMap_append, List.nodup_append] at hnodup
    refine hnodup.2.2 id ?_ id ?_ rfl
    · exact List.mem_filterMap.2 ⟨_, hmem, rfl⟩
    · exact List.mem_filterMap.2 ⟨.label id, List.mem_cons_self, rfl⟩
  have hlt : front.length < (front ++ (.label id :: l ++ back)).length := by
    simp only [List.length_append, List.length_cons]
    omega
  rw [List.idxOf?_eq_some_iff]
  refine ⟨hlt, ?_, fun j hj heq => hfront ?_⟩
  · simp
  · rw [List.getElem_append_left hj] at heq
    exact heq ▸ List.getElem_mem hj

end StandsAt

namespace Function

def codeOf (f : Function) (order : List BlockId) : List Instruction :=
  (f.layoutOf order).flatMap fun (id, jump) => f.instructionsOf id ++ jump.toList.map .goto

variable {f : Function} {b n : BlockId} {block : Block}

theorem codeOf_cons (f : Function) (id : BlockId) (rest : List BlockId) :
    f.codeOf (id :: rest) =
      f.instructionsOf id ++ ((f.jumpFrom id rest.head?).toList.map .goto ++ f.codeOf rest) := by
  rw [codeOf, layoutOf, List.flatMap_cons, List.append_assoc]
  rfl

theorem exists_standsAt (f : Function) (front rest : List BlockId) :
    ∃ p, StandsAt (f.codeOf (front ++ rest)) p (f.codeOf rest) := by
  induction front with
  | nil => exact ⟨0, [], [], (List.append_nil _).symm, rfl⟩
  | cons id front ih =>
    obtain ⟨p, before, behind, hcode, -⟩ := ih
    rw [List.cons_append, codeOf_cons, hcode]
    refine ⟨_, f.instructionsOf id ++ ((f.jumpFrom id (front ++ rest).head?).toList.map .goto ++
      before), behind, ?_, rfl⟩
    simp only [List.append_assoc]

theorem filterMap_label?_of_isPlain {body : List Instruction}
    (h : ∀ i ∈ body, i.isPlain = true) : body.filterMap Instruction.label? = [] := by
  rw [List.filterMap_eq_nil_iff]
  intro i hi
  cases i with
  | label j => cases h _ hi
  | _ => rfl

/-- The blocks of the order agree with their links, which lead to blocks of the order, and
the code is theirs. -/
structure LaidOut (f : Function) (code : List Instruction) : Prop where
  agrees : ∀ b ∈ f.preorder, ∃ block, f.block? b = some block ∧ block.Agrees f.exit b
  closed : ∀ {b n}, b ∈ f.preorder → n ∈ f.successorsOf b → n ∈ f.preorder
  code_eq : code = f.codeOf f.preorder

namespace LaidOut

variable {code : List Instruction}

theorem exists_label (hl : f.LaidOut code) (hb : b ∈ f.preorder) :
    ∃ rest, f.instructionsOf b = .label b :: rest := by
  obtain ⟨block, hblock, hagrees⟩ := hl.agrees b hb
  rw [instructionsOf_of_block? hblock]
  cases hagrees with
  | fall => exact ⟨_, rfl⟩
  | goto => exact ⟨_, rfl⟩
  | branch => exact ⟨_, rfl⟩
  | ret => exact ⟨_, rfl⟩

theorem filterMap_label? (hl : f.LaidOut code) :
    code.filterMap Instruction.label? = f.preorder := by
  have hblock : ∀ b ∈ f.preorder, (f.instructionsOf b).filterMap Instruction.label? = [b] := by
    intro b hb
    obtain ⟨block, hblock, hagrees⟩ := hl.agrees b hb
    rw [instructionsOf_of_block? hblock]
    cases hagrees with
    | fall _ hbody => simp [Instruction.label?, filterMap_label?_of_isPlain hbody]
    | goto _ hbody => simp [Instruction.label?, filterMap_label?_of_isPlain hbody]
    | branch _ hbody => simp [Instruction.label?, filterMap_label?_of_isPlain hbody]
    | ret _ hbody => simp [Instruction.label?, filterMap_label?_of_isPlain hbody]
  have horder : ∀ order : List BlockId, (∀ b ∈ order, b ∈ f.preorder) →
      (f.codeOf order).filterMap Instruction.label? = order := by
    intro order horder
    induction order with
    | nil => rfl
    | cons b rest ih =>
      rw [List.forall_mem_cons] at horder
      have hjump : ((f.jumpFrom b rest.head?).toList.map Instruction.goto).filterMap
          Instruction.label? = [] := by
        cases f.jumpFrom b rest.head? <;> rfl
      rw [codeOf_cons, List.filterMap_append, List.filterMap_append, hblock b horder.1, hjump,
        ih horder.2]
      rfl
  rw [hl.code_eq]
  exact horder f.preorder fun _ => id

theorem nodup_labels (hl : f.LaidOut code) : (code.filterMap Instruction.label?).Nodup := by
  rw [hl.filterMap_label?]
  exact f.nodup_preorder

end LaidOut

/-! ## Matching places -/

/-- Control is at the same instruction, in a block and in the code. -/
structure SameSpot (f : Function) (code : List Instruction) (s : Spot) (c : Cursor) : Prop where
  met : c.met = s.met
  index : s.index < (f.instructionsOf s.block).length
  place : ∃ front rest p, f.preorder = front ++ s.block :: rest ∧
    StandsAt code p (f.codeOf (s.block :: rest)) ∧ c.position = p + s.index

/-- Control is at the same instruction, or in front of a jump to it that is in the code
only. -/
def Matches (f : Function) (code : List Instruction) (s : Spot) (c : Cursor) : Prop :=
  f.SameSpot code s c ∨
    s.index = 0 ∧ c.met = s.met ∧ s.block ∈ f.preorder ∧ code[c.position]? = some (.goto s.block)

variable {code : List Instruction} {choices : Nat → Bool} {s t : Spot} {c d : Cursor}

theorem LaidOut.exists_arrive (hl : f.LaidOut code) (hb : b ∈ f.preorder) (met : Nat) :
    ∃ p, code.idxOf? (.label b) = some p ∧ f.SameSpot code ⟨b, 0, met⟩ ⟨p, met⟩ := by
  obtain ⟨front, rest, horder⟩ := List.append_of_mem hb
  obtain ⟨p, hstands⟩ := f.exists_standsAt front (b :: rest)
  rw [← horder, ← hl.code_eq] at hstands
  obtain ⟨body, hbody⟩ := hl.exists_label hb
  have hlabel := hstands
  rw [codeOf_cons, hbody] at hlabel
  refine ⟨p, hlabel.idxOf?_label hl.nodup_labels, rfl, ?_, front, rest, p, horder, hstands, rfl⟩
  rw [hbody]
  exact Nat.succ_pos _

/-- Behind a block that does not jump elsewhere comes the block it goes on to, or a jump
to it. -/
theorem LaidOut.matches_next (hl : f.LaidOut code) {front rest : List BlockId} {p : Nat}
    (horder : f.preorder = front ++ b :: rest) (hstands : StandsAt code p (f.codeOf (b :: rest)))
    (hb : f.block? b = some block) (hopen : block.isTerminated = false)
    (hnext : block.next = some n) (met : Nat) :
    f.Matches code ⟨n, 0, met⟩ ⟨p + block.instructions.length, met⟩ := by
  have hmem : n ∈ f.preorder := by
    apply hl.closed (b := b)
    · rw [horder]
      exact List.mem_append_right _ List.mem_cons_self
    · rw [successorsOf_of_block? hb, Block.successors, hnext]
      exact List.mem_append_left _ List.mem_cons_self
  rw [codeOf_cons, instructionsOf_of_block? hb] at hstands
  have hbehind := hstands.append_right
  by_cases hfollows : rest.head? = some n
  · obtain ⟨rest, rfl⟩ := List.head?_eq_some_iff.1 hfollows
    have hjump : f.jumpFrom b (n :: rest).head? = none := by
      simp [jumpFrom, hb, hnext, hopen]
    rw [hjump] at hbehind
    obtain ⟨body, hbody⟩ := hl.exists_label hmem
    refine .inl ⟨rfl, ?_, front ++ [b], rest, _, ?_, hbehind, rfl⟩
    · rw [hbody]
      exact Nat.succ_pos _
    · rw [horder, List.append_assoc]
      rfl
  · have hjump : f.jumpFrom b rest.head? = some n := by
      simp [jumpFrom, hb, hnext, hopen, hfollows]
    rw [hjump] at hbehind
    exact .inr ⟨rfl, rfl, hmem, hbehind.getElem?_add (Nat.succ_pos _)⟩

/-! ## One instruction -/

section Advance

variable {i : Instruction} {index met p : Nat}

theorem advance_reader_of_isJump (hi : code[p]? = some i) (hjump : i.isJump = false) :
    (reader code choices).advance ⟨p, met⟩ = some ⟨p + 1, met⟩ := by
  simp only [reader, hi]
  cases i with
  | goto => cases hjump
  | branch => cases hjump
  | ret => cases hjump
  | _ => rfl

theorem advance_reader_goto {target : BlockId} (hi : code[p]? = some (.goto target)) {q : Nat}
    (htarget : code.idxOf? (.label target) = some q) :
    (reader code choices).advance ⟨p, met⟩ = some ⟨q, met⟩ := by
  simp only [reader, hi, Option.bind_eq_bind, Option.bind_some, htarget]
  rfl

theorem advance_reader_ret {value : Option (Operand × Ty)} (hi : code[p]? = some (.ret value)) :
    (reader code choices).advance ⟨p, met⟩ = none := by
  simp only [reader, hi, Option.bind_eq_bind, Option.bind_some]

section

variable (hb : f.block? b = some block)

include hb

theorem advance_walker_inside (hi : block.instructions[index]? = some i) (hjump : i.isJump = false)
    (hindex : index + 1 < block.instructions.length) :
    (f.walker choices).advance ⟨b, index, met⟩ = some ⟨b, index + 1, met⟩ := by
  simp only [walker, hb, hi, Option.bind_eq_bind, Option.bind_some, if_pos hindex]
  cases i with
  | branch => cases hjump
  | ret => cases hjump
  | _ => rfl

theorem advance_walker_end (hi : block.instructions[index]? = some i) (hbranch : i.isBranch = false)
    (hret : ∀ value, i ≠ .ret value) (hindex : index + 1 = block.instructions.length)
    (hnext : block.next = some n) :
    (f.walker choices).advance ⟨b, index, met⟩ = some ⟨n, 0, met⟩ := by
  simp only [walker, hb, hi, Option.bind_eq_bind, Option.bind_some, hindex, Nat.lt_irrefl, if_false,
    hnext]
  cases i with
  | branch => cases hbranch
  | ret value => exact absurd rfl (hret value)
  | _ => rfl

theorem advance_walker_branch {condition : Operand}
    {target : BlockId} (hi : block.instructions[index]? = some (.branch condition target))
    {n : BlockId} (hlink : (if choices met then block.branch else block.next) = some n) :
    (f.walker choices).advance ⟨b, index, met⟩ = some ⟨n, 0, met + 1⟩ := by
  simp only [walker, hb, hi, Option.bind_eq_bind, Option.bind_some]
  cases hchoice : choices met with
  | true =>
    rw [hchoice, if_pos rfl] at hlink
    rw [if_pos rfl, hlink]
    rfl
  | false =>
    rw [hchoice, if_neg Bool.false_ne_true] at hlink
    rw [if_neg Bool.false_ne_true, hlink]
    rfl

theorem advance_walker_ret {value : Option (Operand × Ty)}
    (hi : block.instructions[index]? = some (.ret value)) :
    (f.walker choices).advance ⟨b, index, met⟩ = none := by
  simp only [walker, hb, hi, Option.bind_eq_bind, Option.bind_some]

end

theorem LaidOut.advance_inside (hl : f.LaidOut code) {front rest : List BlockId}
    (horder : f.preorder = front ++ b :: rest) (hstands : StandsAt code p (f.codeOf (b :: rest)))
    (hb : f.block? b = some block) (hi : block.instructions[index]? = some i)
    (hcode : code[p + index]? = some i) (hindex : index + 1 < block.instructions.length) :
    ∃ t d, (f.walker choices).advance ⟨b, index, met⟩ = some t ∧
      (reader code choices).advance ⟨p + index, met⟩ = some d ∧ f.Matches code t d := by
  obtain ⟨_, hb', hagrees⟩ := hl.agrees b (horder ▸ List.mem_append_right _ List.mem_cons_self)
  cases hb.symm.trans hb'
  have hjump : i.isJump = false := by
    apply hagrees.consistent.jumps
    rw [List.mem_iff_getElem?]
    refine ⟨index, ?_⟩
    rw [List.getElem?_dropLast, if_pos (by omega), hi]
  refine ⟨_, _, advance_walker_inside hb hi hjump hindex, advance_reader_of_isJump hcode hjump,
    .inl ⟨rfl, ?_, front, rest, p, horder, hstands, Nat.add_assoc ..⟩⟩
  rw [instructionsOf_of_block? hb]
  exact hindex

/-- At the end of a block control follows a link, or a jump to the same block. -/
theorem LaidOut.advance_end (hl : f.LaidOut code) {front rest : List BlockId}
    (horder : f.preorder = front ++ b :: rest) (hstands : StandsAt code p (f.codeOf (b :: rest)))
    (hb : f.block? b = some block) (hi : block.instructions[index]? = some i)
    (hcode : code[p + index]? = some i) (hindex : index + 1 = block.instructions.length) :
    (∃ value, i = .ret value) ∧ (f.walker choices).advance ⟨b, index, met⟩ = none ∧
        (reader code choices).advance ⟨p + index, met⟩ = none ∨
      ∃ t d, (f.walker choices).advance ⟨b, index, met⟩ = some t ∧
        (reader code choices).advance ⟨p + index, met⟩ = some d ∧ f.Matches code t d := by
  have hmem : b ∈ f.preorder := horder ▸ List.mem_append_right _ List.mem_cons_self
  obtain ⟨_, hb', hagrees⟩ := hl.agrees b hmem
  cases hb.symm.trans hb'
  have hlink : ∀ {n}, n ∈ block.successors → n ∈ f.preorder := by
    intro n hn
    rw [← successorsOf_of_block? hb] at hn
    exact hl.closed hmem hn
  have hlast : block.instructions.getLast? = some i := by
    rw [List.getLast?_eq_getElem?, ← hindex, Nat.add_sub_cancel, hi]
  have hfall : ∀ {n met}, i.isTerminator = false → block.next = some n →
      f.Matches code ⟨n, 0, met⟩ ⟨p + index + 1, met⟩ := by
    intro n met hopen hnext
    have hterminated : block.isTerminated = false := by
      rw [Block.isTerminated, hlast, Option.any_some, hopen]
    have hmatches := hl.matches_next horder hstands hb hterminated hnext met
    rw [← hindex] at hmatches
    exact hmatches
  have hconcat : ∀ (body : List Instruction) (last : Instruction),
      (.label b :: (body ++ [last]) : List Instruction).getLast? = some last := by
    intro body last
    rw [← List.cons_append, List.getLast?_concat]
  cases hagrees with
  | @fall body next hexit hbody =>
    have hjump : i.isJump = false := by
      rcases List.mem_cons.1 (List.mem_of_getLast? hlast) with rfl | hmem
      · rfl
      · exact Instruction.isJump_of_isPlain (hbody i hmem)
    refine .inr ⟨_, _,
      advance_walker_end hb hi (Instruction.isBranch_of_isJump hjump) ?_ hindex rfl,
      advance_reader_of_isJump hcode hjump,
      hfall (Instruction.isTerminator_of_isJump hjump) rfl⟩
    rintro value rfl
    cases hjump
  | @goto body target hexit hbody =>
    cases (hconcat _ _).symm.trans hlast
    obtain ⟨q, hq, harrive⟩ := hl.exists_arrive (hlink List.mem_cons_self) met
    exact .inr ⟨_, _, advance_walker_end hb hi rfl (by rintro _ ⟨⟩) hindex rfl,
      advance_reader_goto hcode hq, .inl harrive⟩
  | @branch body condition target next hexit hbody =>
    cases (hconcat _ _).symm.trans hlast
    by_cases hchoice : choices met = true
    · obtain ⟨q, hq, harrive⟩ := hl.exists_arrive
        (hlink (List.mem_cons_of_mem _ List.mem_cons_self)) (met + 1)
      refine .inr ⟨_, ⟨q, met + 1⟩, advance_walker_branch hb hi (if_pos hchoice), ?_, .inl harrive⟩
      simp only [reader, hcode, Option.bind_eq_bind, Option.bind_some, if_pos hchoice, hq]
      rfl
    · refine .inr ⟨_, ⟨p + index + 1, met + 1⟩, advance_walker_branch hb hi (if_neg hchoice), ?_,
        hfall rfl rfl⟩
      simp only [reader, hcode, Option.bind_eq_bind, Option.bind_some, if_neg hchoice]
      rfl
  | @ret body value hexit hbody =>
    cases (hconcat _ _).symm.trans hlast
    exact .inl ⟨⟨value, rfl⟩, advance_walker_ret hb hi, advance_reader_ret hcode⟩

end Advance

theorem SameSpot.instruction?_eq (h : f.SameSpot code s c) (choices : Nat → Bool) :
    (reader code choices).instruction? c = (f.walker choices).instruction? s := by
  obtain ⟨front, rest, p, -, hstands, hposition⟩ := h.place
  rw [codeOf_cons] at hstands
  simp only [reader, walker, hposition]
  exact hstands.append_left.getElem?_add h.index

/-- At the same instruction both ways return, or both go on to a matching place. -/
theorem SameSpot.advance (hl : f.LaidOut code) (h : f.SameSpot code s c) (choices : Nat → Bool) :
    (∃ value, (f.walker choices).instruction? s = some (.ret value)) ∧
        (f.walker choices).advance s = none ∧ (reader code choices).advance c = none ∨
      ∃ t d, (f.walker choices).advance s = some t ∧ (reader code choices).advance c = some d ∧
        f.Matches code t d := by
  have hsame := h.instruction?_eq choices
  obtain ⟨b, index, _⟩ := s
  obtain ⟨position, met⟩ := c
  obtain ⟨hmet, hindex, front, rest, p, horder, hstands, hposition⟩ := h
  dsimp only at hmet hindex horder hstands hposition
  subst hmet hposition
  obtain ⟨block, hb, -⟩ := hl.agrees b (horder ▸ List.mem_append_right _ List.mem_cons_self)
  rw [instructionsOf_of_block? hb] at hindex
  have hi : block.instructions[index]? = some block.instructions[index] :=
    List.getElem?_eq_getElem hindex
  have hfetch : (f.walker choices).instruction? ⟨b, index, met⟩ =
      some block.instructions[index] := by
    simp only [walker, instructionsOf_of_block? hb, hi]
  have hcode : code[p + index]? = some block.instructions[index] := hsame.trans hfetch
  rw [hfetch]
  by_cases hinside : index + 1 < block.instructions.length
  · exact .inr (hl.advance_inside horder hstands hb hi hcode hinside)
  · rcases hl.advance_end horder hstands hb hi hcode (by omega) with ⟨⟨value, hret⟩, hnone⟩ | hnext
    · exact .inl ⟨⟨value, congrArg some hret⟩, hnone⟩
    · exact .inr hnext

/-! ## Whole runs -/

theorem Matches.settle (hl : f.LaidOut code) (h : f.Matches code s c) (choices : Nat → Bool) :
    ∃ d, (reader code choices).Runs c [] d ∧ f.SameSpot code s d := by
  rcases h with h | ⟨hindex, hmet, hmem, hcode⟩
  · exact ⟨c, .refl c, h⟩
  · obtain ⟨b, index, met⟩ := s
    obtain ⟨position, _⟩ := c
    dsimp only at hindex hmet hmem hcode
    subst hindex hmet
    obtain ⟨q, hq, harrive⟩ := hl.exists_arrive hmem _
    exact ⟨_, .step hcode (advance_reader_goto hcode hq) (.refl _), harrive⟩

/-- What is met along the links is met in the code. -/
theorem LaidOut.runs_reader (hl : f.LaidOut code) {trace : List Instruction}
    (hruns : (f.walker choices).Runs s trace t) (h : f.Matches code s c) :
    ∃ d, (reader code choices).Runs c trace d ∧ f.Matches code t d := by
  induction hruns generalizing c with
  | refl s => exact ⟨c, .refl c, h⟩
  | @step s t u i trace hi hnext hrest ih =>
    obtain ⟨c', hjump, hsame⟩ := h.settle hl choices
    rcases hsame.advance hl choices with ⟨-, hnone, -⟩ | ⟨t', d, hwalk, hread, hmatch⟩
    · rw [hnext] at hnone
      cases hnone
    · cases hnext.symm.trans hwalk
      obtain ⟨e, hruns, he⟩ := ih hmatch
      have hstep := Runner.Runs.step ((hsame.instruction?_eq choices).trans hi) hread hruns
      exact ⟨e, hjump.trans hstep, he⟩

/-- What is met in the code is met along the links. -/
theorem LaidOut.runs_walker (hl : f.LaidOut code) {trace : List Instruction}
    (hruns : (reader code choices).Runs c trace d) (h : f.Matches code s c) :
    ∃ t, (f.walker choices).Runs s trace t ∧ f.Matches code t d := by
  induction hruns generalizing s with
  | refl c => exact ⟨s, .refl s, h⟩
  | @step c d e i trace hi hnext hrest ih =>
    rcases h with hsame | ⟨hindex, hmet, hmem, hcode⟩
    · rcases hsame.advance hl choices with ⟨-, -, hnone⟩ | ⟨t, d', hwalk, hread, hmatch⟩
      · rw [hnext] at hnone
        cases hnone
      · cases hnext.symm.trans hread
        obtain ⟨u, hruns, hu⟩ := ih hmatch
        exact ⟨u, .step ((hsame.instruction?_eq choices).symm.trans hi) hwalk hruns, hu⟩
    · -- the walk stays where it is while the code jumps there
      obtain ⟨b, index, met⟩ := s
      obtain ⟨position, _⟩ := c
      dsimp only at hindex hmet hmem hcode
      subst hindex hmet
      obtain ⟨q, hq, harrive⟩ := hl.exists_arrive hmem _
      cases hnext.symm.trans (advance_reader_goto hcode hq)
      cases hi.symm.trans hcode
      exact ih (.inl harrive)

/-- Control never leaves the code but by a return. -/
theorem Matches.progress (hl : f.LaidOut code) (h : f.Matches code s c) (choices : Nat → Bool) :
    c.position < code.length ∧
      ((∃ value, (reader code choices).instruction? c = some (.ret value)) ∨
      ∃ d, (reader code choices).advance c = some d) := by
  rcases h with hsame | ⟨hindex, hmet, hmem, hcode⟩
  · constructor
    · have hread := hsame.instruction?_eq choices
      have hfetch : (f.walker choices).instruction? s = some _ :=
        List.getElem?_eq_getElem hsame.index
      exact (List.getElem?_eq_some_iff.1 (hread.trans hfetch)).1
    · rcases hsame.advance hl choices with ⟨⟨value, hret⟩, -, -⟩ | ⟨_, d, -, hread, -⟩
      · exact .inl ⟨value, (hsame.instruction?_eq choices).trans hret⟩
      · exact .inr ⟨d, hread⟩
  · obtain ⟨q, hq, -⟩ := hl.exists_arrive hmem 0
    exact ⟨(List.getElem?_eq_some_iff.1 hcode).1, .inr ⟨_, advance_reader_goto hcode hq⟩⟩

/-! ## Consistent functions -/

/-- A consistent function has a linear form, with the code of its blocks. -/
theorem Consistent.laidOut (h : f.Consistent) :
    f.linearize = .ok (f.codeOf f.preorder) ∧ f.LaidOut (f.codeOf f.preorder) := by
  have hreach : ∀ {b}, b ∈ f.interior → f.Reachable b := reachable_of_mem_interior
  have hsize : ∀ {b}, b = f.exit ∨ f.Reachable b → b < f.blocks.size := by
    intro b hb
    obtain ⟨block, hblock, -⟩ := h.blocks b hb
    exact lt_size_of_block? hblock
  have hagrees : ∀ {b block}, b = f.exit ∨ f.Reachable b → f.block? b = some block →
      block.Agrees f.exit b := by
    intro b block hb hblock
    obtain ⟨_, hblock', hconsistent, hret⟩ := h.blocks b hb
    cases hblock.symm.trans hblock'
    exact hconsistent.agrees hret
  have hpreorder : ∀ {b}, b ∈ f.preorder → b = f.exit ∨ f.Reachable b := by
    intro b hb
    by_cases hexit : b = f.exit
    · exact .inl hexit
    · exact .inr (hreach ((mem_preorder_of_ne hexit).1 hb))
  have horder : f.order = .ok f.preorder := by
    refine if_pos ?_
    simp only [isLinked, contains, Bool.and_eq_true, decide_eq_true_eq, List.all_eq_true]
    refine ⟨⟨hsize (.inr .refl), hsize (.inl rfl)⟩, fun b hb n hn => ?_⟩
    exact hsize (.inr ((hreach hb).tail hn))
  refine ⟨?_, ?_, ?_, rfl⟩
  · rw [linearize, layout, horder]
    rfl
  · intro b hb
    obtain ⟨block, hblock⟩ := exists_block? (hsize (hpreorder hb))
    exact ⟨block, hblock, hagrees (hpreorder hb) hblock⟩
  · intro b n hb hn
    by_cases hexit : b = f.exit
    · -- the exit leads nowhere
      subst hexit
      obtain ⟨block, hblock⟩ := exists_block? (hsize (.inl rfl))
      rw [successorsOf_of_block? hblock, (hagrees (.inl rfl) hblock).successors_exit] at hn
      cases hn
    · have hmem := (mem_preorder_of_ne hexit).1 hb
      exact mem_preorder_of_successor hmem hn (hsize (.inr ((hreach hmem).tail hn)))

/-- The first instruction of the code is the first one of the entry. -/
theorem Consistent.matches_start (h : f.Consistent) :
    f.Matches (f.codeOf f.preorder) ⟨f.entry, 0, 0⟩ ⟨0, 0⟩ := by
  obtain ⟨-, hl⟩ := h.laidOut
  obtain ⟨block, hblock, -⟩ := h.blocks f.entry (.inr .refl)
  have hfresh : f.entry ∈ f.blocks.handles.erase f.exit :=
    (List.mem_erase_of_ne (Ne.symm h.exit_ne)).2 (mem_handles.2 (lt_size_of_block? hblock))
  obtain ⟨rest, hrest⟩ : ∃ rest, f.preorder = f.entry :: rest := by
    rw [preorder, interior, walk_cons_of_mem hfresh, List.cons_append]
    exact ⟨_, rfl⟩
  obtain ⟨body, hbody⟩ := hl.exists_label (hrest ▸ List.mem_cons_self)
  refine .inl ⟨rfl, ?_, [], rest, 0, hrest, ⟨[], [], ?_, rfl⟩, rfl⟩
  · rw [hbody]
    exact Nat.succ_pos _
  · rw [hrest, List.nil_append, List.append_nil]

/-- The linear form of a consistent function runs like the function.  However the
conditions turn out, top to bottom and along the links the same instructions are met, the
runs end at the same return, and control never runs past the end of the code. -/
theorem Consistent.runs_linearize (h : f.Consistent) :
    ∃ code, f.linearize = .ok code ∧ (code.filterMap Instruction.label?).Nodup ∧
      ∀ choices : Nat → Bool,
        (∀ trace, (∃ s, (f.walker choices).Runs ⟨f.entry, 0, 0⟩ trace s) ↔
          ∃ c, (reader code choices).Runs ⟨0, 0⟩ trace c) ∧
        (∀ trace value, (∃ s, (f.walker choices).Runs ⟨f.entry, 0, 0⟩ trace s ∧
            (f.walker choices).instruction? s = some (.ret value)) ↔
          ∃ c, (reader code choices).Runs ⟨0, 0⟩ trace c ∧
            (reader code choices).instruction? c = some (.ret value)) ∧
        ∀ trace c, (reader code choices).Runs ⟨0, 0⟩ trace c → c.position < code.length ∧
          ((∃ value, (reader code choices).instruction? c = some (.ret value)) ∨
            ∃ d, (reader code choices).advance c = some d) := by
  obtain ⟨hcode, hl⟩ := h.laidOut
  have hstart := h.matches_start
  refine ⟨_, hcode, hl.nodup_labels, fun choices => ⟨fun trace => ⟨?_, ?_⟩,
    fun trace value => ⟨?_, ?_⟩, ?_⟩⟩
  · rintro ⟨s, hruns⟩
    obtain ⟨c, hruns, -⟩ := hl.runs_reader hruns hstart
    exact ⟨c, hruns⟩
  · rintro ⟨c, hruns⟩
    obtain ⟨s, hruns, -⟩ := hl.runs_walker hruns hstart
    exact ⟨s, hruns⟩
  · rintro ⟨s, hruns, hret⟩
    obtain ⟨c, hruns, hmatch⟩ := hl.runs_reader hruns hstart
    obtain ⟨d, hjump, hsame⟩ := hmatch.settle hl choices
    have htrace := hruns.trans hjump
    rw [List.append_nil] at htrace
    exact ⟨d, htrace, (hsame.instruction?_eq choices).trans hret⟩
  · rintro ⟨c, hruns, hret⟩
    obtain ⟨s, hruns, hmatch⟩ := hl.runs_walker hruns hstart
    rcases hmatch with hsame | ⟨-, -, -, hgoto⟩
    · exact ⟨s, hruns, (hsame.instruction?_eq choices).symm.trans hret⟩
    · cases hgoto.symm.trans hret
  · intro trace c hruns
    obtain ⟨s, -, hmatch⟩ := hl.runs_walker hruns hstart
    exact hmatch.progress hl choices

def looping : Function :=
  { symbol := 0, name := "looping", returnType := none, entry := 0, exit := 1
    blocks := .ofList [⟨[.label 0, .branch (.var ⟨0, 0⟩) 2], some 3, some 2⟩,
      ⟨[.label 1, .ret none], none, none⟩, ⟨[.label 2, .goto 0], some 0, none⟩,
      ⟨[.label 3], some 1, none⟩] }

theorem consistent_looping : looping.Consistent := by
  have hreach : ∀ b, looping.Reachable b → b < 4 := by
    intro b hb
    induction hb with
    | refl => decide
    | @tail b n _ hedge ih =>
      have hclosed : ∀ b < 4, ∀ n ∈ looping.successorsOf b, n < 4 := by decide
      exact hclosed b ih n hedge
  have hagrees : ∀ b < 4, ∃ block, looping.block? b = some block ∧ block.Agrees looping.exit b := by
    intro b hb
    have hbody : ∀ i ∈ ([] : List Instruction), i.isPlain = true :=
      fun _ h => absurd h List.not_mem_nil
    match b, hb with
    | 0, _ => exact ⟨_, rfl, .branch (by decide) hbody⟩
    | 1, _ => exact ⟨_, rfl, .ret rfl hbody⟩
    | 2, _ => exact ⟨_, rfl, .goto (by decide) hbody⟩
    | 3, _ => exact ⟨_, rfl, .fall (by decide) hbody⟩
  refine ⟨by decide, fun b hb => ?_⟩
  have hlt : b < 4 := by
    rcases hb with rfl | hb
    · decide
    · exact hreach b hb
  obtain ⟨block, hblock, h⟩ := hagrees b hlt
  exact ⟨block, hblock, h.consistent, h.ret_iff⟩

/-- Once around the loop and out of it. -/
theorem runs_linearize_looping :
    looping.Consistent ∧ ∃ code c, looping.linearize = .ok code ∧ code.length = 8 ∧
      (reader code (· == 0)).Runs ⟨0, 0⟩ [.label 0, .branch (.var ⟨0, 0⟩) 2, .label 2, .label 0,
        .branch (.var ⟨0, 0⟩) 2, .label 3, .label 1] c ∧
      (reader code (· == 0)).instruction? c = some (.ret none) := by
  obtain ⟨code, hcode, -, hruns⟩ := consistent_looping.runs_linearize
  have hlength : looping.linearize.toOption.map List.length = some 8 := by decide +kernel
  have hwalk : (looping.walker (· == 0)).Runs ⟨0, 0, 0⟩
      [.label 0, .branch (.var ⟨0, 0⟩) 2, .label 2,
      .label 0, .branch (.var ⟨0, 0⟩) 2, .label 3, .label 1] ⟨1, 1, 2⟩ :=
    .step (i := .label 0) rfl rfl <| .step (i := .branch _ 2) rfl rfl <|
    .step (i := .label 2) rfl rfl <| .step (i := .goto 0) rfl rfl <|
    .step (i := .label 0) rfl rfl <| .step (i := .branch _ 2) rfl rfl <|
    .step (i := .label 3) rfl rfl <| .step (i := .label 1) rfl rfl <| .refl _
  obtain ⟨c, hread, hret⟩ := ((hruns _).2.1 _ none).1 ⟨_, hwalk, rfl⟩
  rw [hcode] at hlength
  exact ⟨consistent_looping, code, c, hcode, Option.some.inj hlength, hread, hret⟩

end Function

end Cinder.Flow
