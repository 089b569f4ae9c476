import Cinder.Proofs.Codegen.Labels
import Cinder.Proofs.Compiler.Totality

/-!
# Every reference has one target

The assembly program of an accepted program defines each of its labels once, goes only
to labels that it defines, and reads each floating point constant from the one entry of
the data section that was laid down for it.
-/

namespace Cinder

open Cinder.Flow Codegen Interference Machine

/-! ## Where code goes -/

namespace Flow.Function

variable {table : SymbolTable} {f : Function} {live : Arena (List (Point VariableSet))}
  {p : Placement} {id : BlockId} {i : Instruction} {point : Point VariableSet}

theorem Ready.mem_preorder_of_jumpsTo (h : f.Ready table) (hid : id ∈ f.preorder)
    (hi : i ∈ f.instructionsOf id) {target : BlockId} (htarget : i.jumpsTo target = true) :
    target ∈ f.preorder := by
  obtain ⟨⟨hl, ha, -⟩, -⟩ := h.standard
  obtain ⟨block, hb⟩ := exists_block? (lt_size_of_mem_preorder hl.exit hid)
  rw [instructionsOf_of_block? hb] at hi
  exact hl.mem_preorder ha hid hb ((ha hb).mem_successors ⟨i, hi, htarget⟩)

theorem Ready.mem_preorder_of_jumpFrom (h : f.Ready table) (hid : id ∈ f.preorder)
    {following : Option BlockId} {target : BlockId}
    (hjump : f.jumpFrom id following = some target) : target ∈ f.preorder := by
  obtain ⟨⟨hl, ha, -⟩, -⟩ := h.standard
  obtain ⟨block, hb⟩ := exists_block? (lt_size_of_mem_preorder hl.exit hid)
  obtain ⟨_, heq, hjump⟩ := Option.bind_eq_some_iff.1 hjump
  cases hb.symm.trans heq
  obtain ⟨next, hnext, hjump⟩ := Option.bind_eq_some_iff.1 hjump
  split at hjump
  · cases hjump
    refine hl.mem_preorder ha hid hb ?_
    rw [Block.successors, hnext]
    exact List.mem_cons_self
  · cases hjump

theorem exists_jumpFrom_of_mem_layoutOf {order : List BlockId} {entry : BlockId × Option BlockId}
    (h : entry ∈ f.layoutOf order) :
    entry.1 ∈ order ∧ ∃ following, entry.2 = f.jumpFrom entry.1 following := by
  induction order with
  | nil => cases h
  | cons id rest ih =>
    rcases List.mem_cons.1 h with rfl | h
    · exact ⟨List.mem_cons_self, rest.head?, rfl⟩
    · obtain ⟨hmem, hjump⟩ := ih h
      exact ⟨List.mem_cons_of_mem _ hmem, hjump⟩

theorem reads_of_mem_enterFrame {size : Nat} {instr : Instr} (h : .instr instr ∈ enterFrame size) :
    Reads [] instr := by
  have hmem : .instr instr ∈ [.push (full .rbp), .mov (full .rbp) (full .rsp),
      .alu .sub (full .rsp) (immediate size)].map Line.instr := by
    refine List.Sublist.mem h ?_
    unfold enterFrame
    split
    · exact List.sublist_append_left _ _
    · exact .refl _
  simp only [List.mem_map, Line.instr.injEq, exists_eq_right, List.mem_cons, List.not_mem_nil,
    or_false] at hmem
  rcases hmem with rfl | rfl | rfl
  all_goals exact .of_none rfl (by simp [Instr.operands])

theorem reads_of_mem_prologue (context : Context) {debugInfo : Bool} {instr : Instr}
    (h : .instr instr ∈ context.prologue debugInfo) : Reads [] instr := by
  simp only [Context.prologue, List.mem_append, List.mem_map] at h
  rcases h with ((h | h) | h) | ⟨_, h, heq⟩
  · simp [globalLabel] at h
  · split at h
    · obtain ⟨_, -, heq⟩ := List.mem_map.1 h
      cases heq
    · cases h
  · exact reads_of_mem_enterFrame h
  · cases heq
    obtain ⟨slot, -, rfl⟩ := List.mem_map.1 h
    exact .of_none rfl (by simp [Instr.operands, Machine.Operand.dataIndex?])

/-- An instruction of a routine sets up the frame, jumps behind a block, or belongs to the
code of an instruction. -/
theorem Ready.exists_of_mem_lines (h : f.Ready table) (hp : f.Placed table live p)
    {pool : Pool Constant} {commentary : Commentary} {r : Routine}
    (hr : Routine.ofFunction table pool commentary f = .ok r) {instr : Instr}
    (hmem : .instr instr ∈ r.lines) :
    Reads [] instr ∨ (∃ target ∈ f.preorder, instr = .jmp (f.labelOf target)) ∨
      ∃ id ∈ f.preorder, ∃ q ∈ annotated f live id,
        .instr instr ∈ (Context.mk table f p pool commentary.color).codeOf q.2.after q.1 := by
  cases hr.symm.trans (h.ofFunction_eq hp pool commentary)
  rcases List.mem_append.1 hmem with hmem | hmem
  · exact .inl (reads_of_mem_prologue _ hmem)
  · obtain ⟨⟨id, jump⟩, hentry, hmem⟩ := List.mem_flatMap.1 hmem
    obtain ⟨hid, following, hjump⟩ := exists_jumpFrom_of_mem_layoutOf hentry
    rcases List.mem_append.1 hmem with hmem | hmem
    · obtain ⟨q, hq, hmem⟩ := List.mem_flatMap.1 hmem
      rcases List.mem_cons.1 hmem with heq | hmem
      · cases heq
      · exact .inr (.inr ⟨id, hid, q, hq, hmem⟩)
    · obtain ⟨target, htarget, heq⟩ := List.mem_map.1 hmem
      cases heq
      rw [Option.mem_toList] at htarget
      exact .inr (.inl ⟨target, h.mem_preorder_of_jumpFrom hid (hjump.symm.trans htarget), rfl⟩)

end Flow.Function

/-! ## Modules -/

theorem Flow.Function.Ready.typed_of_mem {table : SymbolTable} {f : Function} (h : f.Ready table)
    {id : BlockId} (hid : id ∈ f.preorder) {i : Instruction} (hi : i ∈ f.instructionsOf id) :
    i.Typed table := by
  obtain ⟨⟨hl, -⟩, hproper, -⟩ := h.standard
  obtain ⟨block, hb⟩ := Function.exists_block? (Function.lt_size_of_mem_preorder hl.exit hid)
  rw [Function.instructionsOf_of_block? hb] at hi
  exact (hproper id block hb i hi).typed

theorem Pool.getElem?_number {α : Type} [DecidableEq α] {pool : Pool α} {a : α}
    (h : a ∈ pool.entries) : pool.entries[pool.number a]? = some a := by
  rw [List.getElem?_eq_some_iff]
  exact ⟨List.idxOf_lt_length_iff.2 h, List.getElem_idxOf _⟩

namespace Flow.Module

variable {m : Module} {f : Function} {id : BlockId} {i : Instruction}

def HasOperand (m : Module) (operand : Operand) : Prop :=
  ∃ f ∈ m.functions, ∃ id ∈ f.preorder, ∃ i ∈ f.instructionsOf id, operand ∈ i.operands

theorem mem_labelNames_of_function (hf : f ∈ m.functions) {label : String}
    (h : label ∈ f.labelNames) : label ∈ m.labelNames :=
  List.mem_cons_of_mem _ (List.mem_append_left _ (List.mem_flatMap.2 ⟨f, hf, h⟩))

theorem mem_pool (hf : f ∈ m.functions) (hid : id ∈ f.preorder) (hi : i ∈ f.instructionsOf id)
    {c : Constant} (hc : c ∈ i.poolRequests) : c ∈ m.pool.entries := by
  rw [pool, Pool.mem_ofRequests]
  exact List.mem_flatMap.2 ⟨f, hf, List.mem_flatMap.2 ⟨i, List.mem_flatMap.2 ⟨id, hid, hi⟩, hc⟩⟩

/-- Floating point operands have entries.  Conditions are none: they are booleans. -/
theorem Ready.mem_pool_of_hasOperand (hm : m.Ready) {width : FloatWidth} {bits : FloatBits width}
    (h : m.HasOperand (.constant (.float width bits))) : .float width bits ∈ m.pool.entries := by
  obtain ⟨f, hf, id, hid, i, hi, hoperand⟩ := h
  refine mem_pool hf hid hi (Instruction.mem_poolRequests hoperand ?_)
  have htyped := (hm.functions f hf).typed_of_mem hid hi
  cases i with
  | branch condition target =>
    cases List.mem_singleton.1 hoperand
    cases htyped
  | _ => rfl

theorem Ready.mem_labelNames_of_goesTo (hm : m.Ready) (hf : f ∈ m.functions) (hid : id ∈ f.preorder)
    (hi : i ∈ f.instructionsOf id) {context : Context} (htable : context.table = m.symbols)
    (hfunction : context.function = f) {name : String} (h : context.GoesTo i name) :
    name ∈ m.labelNames := by
  have hready := hm.functions f hf
  rcases h with ⟨target, htarget, rfl⟩ | ⟨result, callee, operands, rfl, rfl⟩
  · have hmem := hready.mem_preorder_of_jumpsTo hid hi htarget
    rw [hfunction]
    exact mem_labelNames_of_function hf (List.mem_cons_of_mem _ (List.mem_map_of_mem hmem))
  · obtain ⟨parameters, returnType, hcallee, -⟩ := hready.typed_of_mem hid hi
    obtain ⟨g, hg, -, hname, -⟩ := hm.closed hcallee
    rw [htable, ← hname]
    exact mem_labelNames_of_function hg List.mem_cons_self

end Flow.Module

namespace Codegen

variable {commentary : Commentary} {m : Module} {assembly : Assembly}

theorem eq_call_or_reads_of_mem_entryPoint {returnsStatus : Bool} {instr : Instr}
    (h : .instr instr ∈ entryPoint returnsStatus) : instr = .call "main" ∨ Reads [] instr := by
  cases returnsStatus with
  | _ =>
    simp only [entryPoint, List.mem_cons, reduceCtorEq, Line.instr.injEq, false_or, or_false,
      List.not_mem_nil] at h
    refine h.imp id fun h => ?_
    rcases h with rfl | rfl | rfl
    all_goals exact .of_none rfl (by simp [Instr.operands])

/-- An instruction of an assembly program belongs to the entry point, where it calls
`main` or refers to nothing, or to a routine. -/
theorem exists_of_mem_assemble (h : assemble commentary m = .ok assembly) {instr : Instr}
    (hmem : .instr instr ∈ assembly.lines) :
    instr = .call "main" ∨ Reads [] instr ∨ ∃ f ∈ m.functions, ∃ r ∈ assembly.routines,
      Routine.ofFunction m.symbols m.pool commentary f = .ok r ∧ .instr instr ∈ r.lines := by
  obtain ⟨data, hroutines, hdata, hlines⟩ := exists_of_assemble h
  rw [hlines] at hmem
  simp only [List.mem_append] at hmem
  rcases hmem with (((hmem | hmem) | hmem) | hmem) | hmem
  · exact (eq_call_or_reads_of_mem_entryPoint hmem).imp id .inl
  · simp at hmem
  · rcases exists_of_mem_intercalate hmem with heq | ⟨code, hcode, hmem⟩
    · cases heq
    · obtain ⟨r, hr, rfl⟩ := List.mem_map.1 hcode
      obtain ⟨f, hf, hfr⟩ := forall₂_exists_left (forall₂_of_mapM hroutines) hr
      exact .inr (.inr ⟨f, hf, r, hr, hfr, hmem⟩)
  · simp at hmem
  · exact absurd hmem (instr_not_mem_dataEntriesFrom hdata instr)

/-- Every instruction that goes somewhere goes to a label of the module. -/
theorem mem_labelNames_of_assemble (hm : m.Ready) (hmain : "main" ∈ m.functions.map (·.name))
    (h : assemble commentary m = .ok assembly) {line : Line} (hline : line ∈ assembly.lines)
    {name : String} (htarget : line.target? = some name) : name ∈ m.labelNames := by
  cases line with
  | instr instr =>
    rcases exists_of_mem_assemble h hline with rfl | hreads | ⟨f, hf, r, -, hr, hmem⟩
    · cases htarget
      obtain ⟨f, hf, hname⟩ := List.mem_map.1 hmain
      refine Module.mem_labelNames_of_function hf (List.mem_cons.2 (.inl ?_))
      rw [hname]
      rfl
    · cases hreads.straight.symm.trans htarget
    · have hready := hm.functions f hf
      obtain ⟨live, p, hp⟩ := hready.exists_placed
      rcases hready.exists_of_mem_lines hp hr hmem with
        hreads | ⟨target, hpreorder, rfl⟩ | ⟨id, hid, q, hq, hcode⟩
      · cases hreads.straight.symm.trans htarget
      · cases htarget
        exact Module.mem_labelNames_of_function hf
          (List.mem_cons_of_mem _ (List.mem_map_of_mem hpreorder))
      · have hgoes := (hready.refers hp m.pool commentary.color hid hq).targets hcode htarget
        exact hm.mem_labelNames_of_goesTo hf hid (hp.mem_instructionsOf hid hq) rfl rfl hgoes
  | _ => cases htarget

/-- Every entry that an instruction refers to holds a constant of the pool. -/
theorem exists_entry_of_assemble (hm : m.Ready) (h : assemble commentary m = .ok assembly)
    {line : Line} (hline : line ∈ assembly.lines) {entry : Nat} (hentry : entry ∈ line.entries) :
    ∃ c, m.pool.entries[entry]? = some c := by
  have hreads : ∀ {instr : Instr}, Reads [] instr → entry ∉ (Line.instr instr).entries := by
    intro instr hreads hentry
    obtain ⟨operand, hoperand, hentry⟩ := List.mem_filterMap.1 hentry
    rcases hreads.entries operand hoperand with hnone | ⟨v, hv, -⟩
    · cases hnone.symm.trans hentry
    · cases hv
  cases line with
  | instr instr =>
    rcases exists_of_mem_assemble h hline with rfl | hplain | ⟨f, hf, r, -, hr, hmem⟩
    · cases hentry
    · exact absurd hentry (hreads hplain)
    · have hready := hm.functions f hf
      obtain ⟨live, p, hp⟩ := hready.exists_placed
      rcases hready.exists_of_mem_lines hp hr hmem with
        hplain | ⟨target, -, rfl⟩ | ⟨id, hid, q, hq, hcode⟩
      · exact absurd hentry (hreads hplain)
      · cases hentry
      · obtain ⟨c, hc, rfl⟩ :=
          (hready.refers hp m.pool commentary.color hid hq).entries hcode hentry
        exact ⟨c, Pool.getElem?_number
          (Module.mem_pool hf hid (hp.mem_instructionsOf hid hq) hc)⟩
  | _ => cases hentry

/-! ## References -/

def Context.entryOf? (context : Context) (operand : Flow.Operand) : Option Nat :=
  (context.valueOf operand).toOption.bind Value.dataIndex?

/-- The code of every instruction is part of a routine, and refers to those entries of the
data section that hold operands of the instruction. -/
def Routine.Requests (m : Module) (commentary : Commentary) (r : Routine) : Prop :=
  ∃ live, r.function.instructionLiveness = .ok live ∧ ∀ id ∈ r.function.preorder,
    (annotated r.function live id).map Prod.fst = r.function.instructionsOf id ∧
    ∀ i point, (i, point) ∈ annotated r.function live id → ∃ code,
      (Context.mk m.symbols r.function r.placement m.pool commentary.color).select point.after i =
          .ok code ∧
        code <:+: r.lines ∧ ∀ line ∈ code, ∀ entry ∈ line.entries,
          ∃ c, .constant c ∈ i.operands ∧ m.pool.entries[entry]? = some c

/-- Every reference of an assembly program is to one thing. -/
structure Assembly.Resolves (m : Module) (commentary : Commentary) (assembly : Assembly) :
    Prop where
  functions : assembly.routines.map Routine.function = m.functions
  routines : ∀ r ∈ assembly.routines, r.lines <:+: assembly.lines ∧ r.Requests m commentary
  labels : (assembly.lines.filterMap Line.label?).Nodup
  targets : ∀ line ∈ assembly.lines, ∀ name, line.target? = some name → .label name ∈ assembly.lines
  entries : ∀ line ∈ assembly.lines, ∀ entry ∈ line.entries, ∃ c text,
    m.pool.entries[entry]? = some c ∧ dataDirective c = .ok text ∧
      [.label (dataLabel entry), .directive text] <:+: assembly.lines
  floats : ∀ {context : Context} {width bits}, context.pool = m.pool →
    m.HasOperand (.constant (.float width bits)) → ∃ entry,
      context.entryOf? (.constant (.float width bits)) = some entry ∧
        m.pool.entries[entry]? = some (.float width bits)
  shares : ∀ {context context' : Context} {operand operand' entry entry'},
    context.pool = m.pool → context'.pool = m.pool → m.HasOperand operand → m.HasOperand operand' →
      context.entryOf? operand = some entry → context'.entryOf? operand' = some entry' →
        (dataLabel entry = dataLabel entry' ↔ operand = operand')

theorem infix_flatMap {α β : Type} {l : List α} {g : α → List β} {a : α} (h : a ∈ l) :
    g a <:+: l.flatMap g := by
  rw [List.flatMap_def]
  exact List.infix_of_mem_flatten (List.mem_map_of_mem h)

theorem Context.codeOf_infix_linesOf (context : Context) {live : Arena (List (Point VariableSet))}
    {id : BlockId} {i : Instruction} {point : Point VariableSet} (jump : Option BlockId)
    (h : (i, point) ∈ annotated context.function live id) :
    context.codeOf point.after i <:+: context.linesOf live id jump := by
  have hshown : context.codeOf point.after i <:+:
      .comment (i.display context.table context.color) :: context.codeOf point.after i :=
    (List.suffix_cons ..).isInfix
  have hblock := infix_flatMap (g := fun q => Line.comment (q.1.display context.table context.color)
    :: context.codeOf q.2.after q.1) h
  exact (hshown.trans hblock).trans (List.prefix_append ..).isInfix

theorem requests_of_ofFunction (hm : m.Ready) {f : Function} (hf : f ∈ m.functions) {r : Routine}
    (hr : Routine.ofFunction m.symbols m.pool commentary f = .ok r) :
    r.function = f ∧ r.Requests m commentary := by
  have hready := hm.functions f hf
  obtain ⟨live, p, hp⟩ := hready.exists_placed
  cases hr.symm.trans (hready.ofFunction_eq hp m.pool commentary)
  refine ⟨rfl, live, hp.liveness, fun id hid => ⟨hp.covers hid, fun i point hmem => ?_⟩⟩
  have hselect := (hready.covers hp m.pool commentary.color hid hmem).select_eq
  refine ⟨_, hselect, ?_, fun line hline entry hentry => ?_⟩
  · have hlayout : id ∈ (f.layoutOf f.preorder).map Prod.fst := by
      rw [f.map_fst_layoutOf]
      exact hid
    obtain ⟨⟨_, jump⟩, hentry, rfl⟩ := List.mem_map.1 hlayout
    let context : Context := ⟨m.symbols, f, p, m.pool, commentary.color⟩
    have hblock := context.codeOf_infix_linesOf jump hmem
    have hblocks := infix_flatMap (g := fun entry => context.linesOf live entry.1 entry.2) hentry
    exact (hblock.trans hblocks).trans (List.suffix_append ..).isInfix
  · obtain ⟨c, hc, rfl⟩ := (Context.refers_select hselect).entries hline hentry
    exact ⟨c, (Instruction.exists_of_mem_poolRequests hc).1,
      Pool.getElem?_number (Module.mem_pool hf hid (hp.mem_instructionsOf hid hmem) hc)⟩

theorem Context.entryOf?_eq_some {context : Context} {operand : Flow.Operand} {entry : Nat} :
    context.entryOf? operand = some entry ↔ ∃ width bits,
      operand = .constant (.float width bits) ∧
        entry = context.pool.number (.float width bits) := by
  constructor
  · intro h
    obtain ⟨value, hvalue, hentry⟩ := Option.bind_eq_some_iff.1 h
    exact exists_of_valueOf (toOption_eq_some.1 hvalue) hentry
  · rintro ⟨width, bits, rfl, rfl⟩
    rfl

theorem resolves_of_assemble (hm : m.Ready) (hmain : "main" ∈ m.functions.map (·.name))
    (h : assemble commentary m = .ok assembly) : assembly.Resolves m commentary := by
  obtain ⟨data, hroutines, hdata, hlines⟩ := exists_of_assemble h
  have hlabels := labels_assemble hm h
  have hrequests : List.Forall₂ (fun f r => r.function = f ∧ r.Requests m commentary)
      m.functions assembly.routines :=
    forall₂_imp_of_mem (fun hf _ hr => requests_of_ofFunction hm hf hr) (forall₂_of_mapM hroutines)
  constructor
  · rw [← List.map_id m.functions]
    exact (map_eq_map_of_forall₂ (hrequests.imp fun f r hr => hr.1.symm)).symm
  · intro r hr
    obtain ⟨f, -, -, hrequest⟩ := forall₂_exists_left hrequests hr
    refine ⟨?_, hrequest⟩
    rw [hlines]
    refine (infix_intercalate (List.mem_map_of_mem hr)).trans ?_
    exact ((List.suffix_append ..).isInfix.trans (List.prefix_append ..).isInfix).trans
      (List.prefix_append ..).isInfix
  · rw [hlabels]
    exact Module.nodup_labelNames hm.names
  · intro line hline name htarget
    have hname := mem_labelNames_of_assemble hm hmain h hline htarget
    rw [← hlabels] at hname
    obtain ⟨line', hline', heq⟩ := List.mem_filterMap.1 hname
    cases line' with
    | label name' =>
      cases heq
      exact hline'
    | _ => cases heq
  · intro line hline entry hentry
    obtain ⟨c, hc⟩ := exists_entry_of_assemble hm h hline hentry
    obtain ⟨text, htext, hinfix⟩ := infix_dataEntriesFrom hdata hc
    rw [Nat.zero_add] at hinfix
    rw [hlines]
    exact ⟨c, text, hc, htext, hinfix.trans (List.suffix_append ..).isInfix⟩
  · intro context width bits hpool hoperand
    refine ⟨_, Context.entryOf?_eq_some.2 ⟨width, bits, rfl, rfl⟩, ?_⟩
    rw [hpool]
    exact Pool.getElem?_number (hm.mem_pool_of_hasOperand hoperand)
  · intro context context' operand operand' entry entry' hpool hpool' hoperand hoperand' hentry
      hentry'
    obtain ⟨width, bits, rfl, rfl⟩ := Context.entryOf?_eq_some.1 hentry
    obtain ⟨width', bits', rfl, rfl⟩ := Context.entryOf?_eq_some.1 hentry'
    rw [hpool, hpool']
    constructor
    · intro heq
      rw [(List.idxOf_inj (hm.mem_pool_of_hasOperand hoperand)).1 (dataLabel_inj heq)]
    · intro heq
      rw [Operand.constant.inj heq]

end Codegen

theorem exists_of_accept {text : String} {accepted : Accepted} (h : accept text = .ok accepted) :
    Program.ofSource text = .ok (accepted.program, accepted.symbols) ∧
      "main" ∈ accepted.program.functions.map (·.name.name) := by
  obtain ⟨⟨program, table⟩, hsource, h⟩ := bind_eq_ok.1 h
  obtain ⟨_, hmain, h⟩ := bind_eq_ok.1 h
  cases h
  refine ⟨hsource, Program.exists_main ?_⟩
  cases hrequire : program.requireMain with
  | ok => rfl
  | error diagnostic =>
    rw [hrequire] at hmain
    cases hmain

/-- The assembly program of an accepted program, optimized with any passes, defines each of
its labels once, and every reference in it is to one of them. -/
theorem exists_resolves {text : String} {accepted : Accepted} (haccept : accept text = .ok accepted)
    (hfit : accepted.program.Addressable accepted.symbols) :
    ∃ m, accepted.program.lower accepted.symbols = .ok m ∧ ∀ passes, ∃ o,
      m.optimize passes = .ok o ∧ ∀ commentary, ∃ assembly,
        assemble commentary o.result = .ok assembly ∧ assembly.Resolves o.result commentary := by
  obtain ⟨hsource, hmain⟩ := exists_of_accept haccept
  obtain ⟨m, hlower, hm, hnames⟩ := Program.exists_ready hsource hfit
  refine ⟨m, hlower, fun passes => ?_⟩
  obtain ⟨o, ho, hready, hkept⟩ := hm.exists_optimize passes
  refine ⟨o, ho, fun commentary => ?_⟩
  obtain ⟨assembly, hassembly⟩ := hready.exists_assemble commentary
  refine ⟨assembly, hassembly, resolves_of_assemble hready ?_ hassembly⟩
  rw [hkept, hnames]
  exact hmain

def scaling : String :=
  "fun scale(x @f64) @f64:\n    return x * 0.5\n" ++
    "fun main() @s32:\n    if scale(0.5) > 0.25:\n        return 1\n    return 0\n"

/-- The three floating point operands have two entries. -/
theorem exists_resolves_scaling :
    ∃ accepted m o assembly, accept scaling = .ok accepted ∧
      accepted.program.Addressable accepted.symbols ∧
      accepted.program.lower accepted.symbols = .ok m ∧ m.optimize Pass.all = .ok o ∧
      assemble ⟨true, false⟩ o.result = .ok assembly ∧ o.result.pool.entries.length = 2 ∧
      assembly.Resolves o.result ⟨true, false⟩ := by
  have hrun : ((accept scaling).toOption.bind fun accepted =>
      (accepted.program.lower accepted.symbols).toOption.bind fun m =>
        (m.optimize Pass.all).toOption.map fun o =>
          (accepted.symbols.size + accepted.program.extent, o.result.pool.entries.length)) =
      some (20, 2) := by
    delta scaling
    rw [accept, Program.ofSource, Program.parse, ← String.ofList_append, tokenize_ofList]
    decide +kernel
  obtain ⟨accepted, haccept, hrun⟩ := Option.bind_eq_some_iff.1 hrun
  obtain ⟨m, hlower, hrun⟩ := Option.bind_eq_some_iff.1 hrun
  obtain ⟨o, ho, hrun⟩ := Option.map_eq_some_iff.1 hrun
  simp only [Prod.mk.injEq] at hrun
  obtain ⟨hextent, hentries⟩ := hrun
  rw [toOption_eq_some] at haccept hlower ho
  have hfit : accepted.program.Addressable accepted.symbols := by
    rw [Program.Addressable, hextent]
    decide
  obtain ⟨m', hlower', h⟩ := exists_resolves haccept hfit
  cases hlower.symm.trans hlower'
  obtain ⟨o', ho', h⟩ := h Pass.all
  cases ho.symm.trans ho'
  obtain ⟨assembly, hassembly, hresolves⟩ := h ⟨true, false⟩
  exact ⟨accepted, m, o, assembly, haccept, hfit, hlower, ho, hassembly, hentries, hresolves⟩

end Cinder
