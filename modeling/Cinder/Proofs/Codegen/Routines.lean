import Cinder.Proofs.Codegen.Selection

/-!
# Code of functions and modules

Code generation succeeds on every module that is ready for it.
-/

namespace Cinder

open Cinder.Flow Codegen Interference Machine

namespace Flow.Function

variable {table : SymbolTable} {f : Function} {live : Arena (List (Point VariableSet))}
  {p : Placement} {id : BlockId} {i : Instruction} {point : Point VariableSet}

theorem Placed.mem_instructionsOf (hp : f.Placed table live p) (hid : id ∈ f.preorder)
    (hmem : (i, point) ∈ annotated f live id) : i ∈ f.instructionsOf id := by
  rw [← hp.covers hid]
  exact List.mem_map_of_mem hmem

/-- No variable that is needed behind a call is in a vector register without a save
slot. -/
theorem Placed.exists_lookup (hp : f.Placed table live p) (hid : id ∈ f.preorder)
    (hmem : (i, point) ∈ annotated f live id) (hover : i.overwrites = true) {v : Variable}
    (hv : v ∈ point.after) {x : Xmm} (hx : p.locations[v]? = some (.xmm x)) :
    ∃ offset, p.savedXmms.lookup x = some offset := by
  have hparameter : v ∉ f.parameters := fun h => hp.spared hid hmem hover h hv
  have hkeeps : x ∈ p.savedXmms.map Prod.fst := hp.laid.keeps hparameter hx
  obtain ⟨slot, hslot, rfl⟩ := List.mem_map.1 hkeeps
  exact Option.isSome_iff_exists.1 (List.lookup_isSome_iff.2 ⟨slot, hslot, beq_self_eq_true _⟩)

theorem Ready.covers (h : f.Ready table) (hp : f.Placed table live p) (pool : Pool Constant)
    (color : Bool) (hid : id ∈ f.preorder) (hmem : (i, point) ∈ annotated f live id) :
    (Context.mk table f p pool color).Covers i point.after := by
  obtain ⟨⟨hl, ha, -⟩, hproper, -, -⟩ := h.standard
  obtain ⟨block, hb⟩ := exists_block? (lt_size_of_mem_preorder hl.exit hid)
  have hi := hp.mem_instructionsOf hid hmem
  rw [instructionsOf_of_block? hb] at hi
  refine ⟨(hproper id block hb i hi).typed, hp.around hid hmem, ?_, ?_, ?_⟩
  · intro v x hover hv hx _
    exact hp.exists_lookup hid hmem hover hv hx
  · rintro n rfl
    obtain ⟨body, hbody, hplain⟩ := (ha hb).exists_label
    rw [hbody] at hi
    rcases List.mem_cons.1 hi with heq | hi
    · cases heq
      exact lt_size_of_mem_preorder hl.exit hid
    · cases hplain _ hi
  · intro n hn
    exact hl.jumps hb ⟨i, hi, hn⟩

theorem map_fst_layoutOf (f : Function) (order : List BlockId) :
    (f.layoutOf order).map Prod.fst = order := by
  induction order with
  | nil => rfl
  | cons id rest ih => exact congrArg (id :: ·) ih

end Flow.Function

/-! ## Lines -/

namespace Codegen.Context

variable (context : Context)

def codeOf (live : VariableSet) (i : Instruction) : List Line :=
  (context.select live i).toOption.getD []

/-- The code of a block, each instruction behind the comment that shows it, and of the
jump behind it. -/
def linesOf (live : Arena (List (Point VariableSet))) (id : BlockId) (jump : Option BlockId) :
    List Line :=
  ((annotated context.function live id).flatMap fun q =>
      Line.comment (q.1.display context.table context.color) :: context.codeOf q.2.after q.1)
    ++ jump.toList.map fun target => Line.instr (.jmp (context.function.labelOf target))

variable {context} {live : VariableSet} {i : Instruction}

theorem Covers.select_eq (h : context.Covers i live) :
    context.select live i = .ok (context.codeOf live i) := by
  obtain ⟨lines, hlines⟩ := exists_select h
  rw [codeOf, hlines]
  rfl

end Codegen.Context

namespace Flow.Function

variable {table : SymbolTable} {f : Function} {live : Arena (List (Point VariableSet))}
  {p : Placement} {id : BlockId}

theorem Ready.block_eq (h : f.Ready table) (hp : f.Placed table live p) (pool : Pool Constant)
    (color : Bool) (hid : id ∈ f.preorder) (jump : Option BlockId) :
    (Context.mk table f p pool color).block live id jump =
      .ok ((Context.mk table f p pool color).linesOf live id jump) := by
  have hcode : (annotated f live id).mapM (fun q =>
      (Context.mk table f p pool color).selectShown q.1 q.2) =
      .ok ((annotated f live id).map fun q => .comment (q.1.display table color) ::
        (Context.mk table f p pool color).codeOf q.2.after q.1) := by
    refine mapM_eq_ok_map fun q hq => ?_
    rw [Context.selectShown, (h.covers hp pool color hid hq).select_eq]
    rfl
  exact bind_eq_ok.2 ⟨_, hcode, rfl⟩

/-- The code of a function that is ready for code generation, block by block. -/
theorem Ready.ofFunction_eq (h : f.Ready table) (hp : f.Placed table live p) (pool : Pool Constant)
    (commentary : Commentary) :
    Routine.ofFunction table pool commentary f =
      .ok ⟨f, p, (Context.mk table f p pool commentary.color).prologue commentary.debugInfo
        ++ (f.layoutOf f.preorder).flatMap fun entry =>
          (Context.mk table f p pool commentary.color).linesOf live entry.1 entry.2⟩ := by
  have hlayout : f.layout = .ok (f.layoutOf f.preorder) := by
    rw [layout, h.standard.wellFormed.linked.order]
    rfl
  have hcode : (f.layoutOf f.preorder).mapM (fun entry =>
      (Context.mk table f p pool commentary.color).block live entry.1 entry.2) =
      .ok ((f.layoutOf f.preorder).map fun entry =>
        (Context.mk table f p pool commentary.color).linesOf live entry.1 entry.2) := by
    refine mapM_eq_ok_map fun entry hentry => h.block_eq hp pool commentary.color ?_ entry.2
    rw [← f.map_fst_layoutOf f.preorder]
    exact List.mem_map_of_mem hentry
  exact bind_eq_ok.2 ⟨live, hp.liveness, bind_eq_ok.2 ⟨p, hp.placement,
    bind_eq_ok.2 ⟨_, hlayout, bind_eq_ok.2 ⟨_, hcode, rfl⟩⟩⟩⟩

end Flow.Function

/-! ## The data section -/

namespace Pool

variable {α : Type} [DecidableEq α]

theorem mem_foldl_request {requests : List α} {pool : Pool α} {a : α} :
    a ∈ (requests.foldl request pool).entries ↔ a ∈ pool.entries ∨ a ∈ requests := by
  induction requests generalizing pool with
  | nil => simp
  | cons b requests ih =>
    rw [List.foldl_cons, ih, mem_request, List.mem_cons, or_assoc]

theorem mem_ofRequests {requests : List α} {a : α} :
    a ∈ (ofRequests requests).entries ↔ a ∈ requests := by
  rw [ofRequests, mem_foldl_request]
  simp

end Pool

namespace Flow

theorem Instruction.exists_of_mem_poolRequests {i : Instruction} {c : Constant}
    (h : c ∈ i.poolRequests) : .constant c ∈ i.operands ∧ ∃ width bits, c = .float width bits := by
  cases i with
  | branch => cases h
  | _ =>
    obtain ⟨operand, hmem, heq⟩ := List.mem_filterMap.1 h
    split at heq
    · cases heq
      exact ⟨hmem, _, _, rfl⟩
    · cases heq

theorem Module.exists_of_mem_pool {m : Module} {c : Constant} (h : c ∈ m.pool.entries) :
    ∃ width bits, c = .float width bits := by
  rw [pool, Pool.mem_ofRequests] at h
  obtain ⟨f, -, h⟩ := List.mem_flatMap.1 h
  obtain ⟨i, -, h⟩ := List.mem_flatMap.1 h
  exact (Instruction.exists_of_mem_poolRequests h).2

end Flow

namespace Machine

theorem exists_dataDirective (width : FloatWidth) (bits : FloatBits width) :
    ∃ text, dataDirective (.float width bits) = .ok text := by
  cases width with
  | _ => exact ⟨_, rfl⟩

theorem exists_dataEntriesFrom {entries : List Constant} (n : Nat)
    (h : ∀ c ∈ entries, ∃ width bits, c = .float width bits) :
    ∃ lines, dataEntriesFrom n entries = .ok lines := by
  induction entries generalizing n with
  | nil => exact ⟨_, rfl⟩
  | cons c entries ih =>
    obtain ⟨⟨width, bits, rfl⟩, hrest⟩ := List.forall_mem_cons.1 h
    obtain ⟨text, htext⟩ := exists_dataDirective width bits
    obtain ⟨others, hothers⟩ := ih (n + 1) hrest
    refine ⟨_,
      bind_eq_ok.2 ⟨_, bind_eq_ok.2 ⟨text, htext, rfl⟩, bind_eq_ok.2 ⟨others, hothers, rfl⟩⟩⟩

end Machine

theorem Flow.Module.Ready.exists_assemble {m : Module} (h : m.Ready) (commentary : Commentary) :
    ∃ assembly, assemble commentary m = .ok assembly := by
  obtain ⟨routines, hroutines, -⟩ := exists_mapM (l := m.functions)
    (g := Routine.ofFunction m.symbols m.pool commentary) (P := fun _ _ => True) (by
      intro f hf
      obtain ⟨live, p, hp⟩ := (h.functions f hf).exists_placed
      exact ⟨_, (h.functions f hf).ofFunction_eq hp m.pool commentary, trivial⟩)
  obtain ⟨data, hdata⟩ := exists_dataEntriesFrom 0 fun c hc => Module.exists_of_mem_pool (m := m) hc
  exact ⟨_, bind_eq_ok.2 ⟨routines, hroutines, bind_eq_ok.2 ⟨data, hdata, rfl⟩⟩⟩

end Cinder
