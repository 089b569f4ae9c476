import Cinder.Proofs.Codegen.References

/-!
# Labels

The labels of an assembly program are the entry point, the functions, their blocks and
the entries of the data section.  No two of them are spelled alike.
-/

namespace Cinder

open Cinder.Flow Codegen Interference Machine

/-! ## Spelling -/

/-- A list is split in one way at the last place where an element stands. -/
theorem append_cons_inj_of_not_mem {α : Type} {a : α} {l l' rest rest' : List α}
    (hrest : a ∉ rest) (hrest' : a ∉ rest') (h : l ++ a :: rest = l' ++ a :: rest') :
    l = l' ∧ rest = rest' := by
  have hsplit : ∀ {middle rest rest' : List α}, a ∉ rest → a :: rest = middle ++ a :: rest' →
      middle = [] ∧ rest = rest' := by
    intro middle rest rest' hrest h
    cases middle with
    | nil => exact ⟨rfl, (List.cons.inj h).2⟩
    | cons b middle =>
      rw [(List.cons.inj h).2] at hrest
      exact absurd (List.mem_append_right _ List.mem_cons_self) hrest
  rcases List.append_eq_append_iff.1 h with ⟨middle, rfl, heq⟩ | ⟨middle, rfl, heq⟩
  · obtain ⟨rfl, rfl⟩ := hsplit hrest heq
    exact ⟨(List.append_nil l).symm, rfl⟩
  · obtain ⟨rfl, rfl⟩ := hsplit hrest' heq
    exact ⟨List.append_nil l', rfl⟩

theorem toList_toString_nat (n : Nat) : (toString n).toList = Nat.toDigits 10 n := by
  rw [Nat.toString_eq_ofList_toDigits, String.toList_ofList]

theorem isDigit_of_mem_toString {n : Nat} {c : Char} (h : c ∈ (toString n).toList) :
    c.isDigit = true := by
  rw [toList_toString_nat] at h
  exact Nat.isDigit_of_mem_toDigits (by decide) (by decide) h

theorem toString_nat_inj {m n : Nat} (h : toString m = toString n) : m = n := by
  have hdigits : Nat.toDigits 10 m = Nat.toDigits 10 n := by
    rw [← toList_toString_nat, ← toList_toString_nat, h]
  calc
    m = Nat.ofDigitChars 10 (Nat.toDigits 10 m) 0 := Nat.ofDigitChars_ten_toDigits.symm
    _ = Nat.ofDigitChars 10 (Nat.toDigits 10 n) 0 := by rw [hdigits]
    _ = n := Nat.ofDigitChars_ten_toDigits

namespace Flow.Function

def labelSuffix (f : Function) (id : BlockId) : String :=
  if id = f.exit then "exit" else toString id

theorem toList_labelOf (f : Function) (id : BlockId) :
    (f.labelOf id).toList = '.' :: 'L' :: (f.name.toList ++ '_' :: (f.labelSuffix id).toList) := by
  unfold labelOf labelSuffix
  split
  · change (".L" ++ f.name ++ "_exit").toList = _
    simp
  · change (".L" ++ f.name ++ "_" ++ toString id).toList = _
    simp

theorem underscore_not_mem_labelSuffix (f : Function) (id : BlockId) :
    '_' ∉ (f.labelSuffix id).toList := by
  unfold labelSuffix
  split
  · decide
  · intro h
    cases isDigit_of_mem_toString h

theorem labelSuffix_inj {f : Function} {id id' : BlockId}
    (h : f.labelSuffix id = f.labelSuffix id') : id = id' := by
  have hexit : ∀ n : Nat, "exit" ≠ toString n := by
    intro n heq
    have hmem : 'e' ∈ (toString n).toList := by
      rw [← heq]
      decide
    cases isDigit_of_mem_toString hmem
  unfold labelSuffix at h
  split at h
  · rename_i hid
    split at h
    · rename_i hid'
      exact hid.trans hid'.symm
    · exact absurd h (hexit id')
  · split at h
    · exact absurd h.symm (hexit id)
    · exact toString_nat_inj h

theorem labelOf_inj {f g : Function} {id id' : BlockId} (h : f.labelOf id = g.labelOf id') :
    f.name = g.name ∧ f.labelSuffix id = g.labelSuffix id' := by
  have hchars := congrArg String.toList h
  rw [toList_labelOf, toList_labelOf, List.cons_inj_right, List.cons_inj_right] at hchars
  obtain ⟨hname, hsuffix⟩ := append_cons_inj_of_not_mem (f.underscore_not_mem_labelSuffix id)
    (g.underscore_not_mem_labelSuffix id') hchars
  exact ⟨String.toList_inj.1 hname, String.toList_inj.1 hsuffix⟩

end Flow.Function

theorem toList_dataLabel (entry : Nat) :
    (dataLabel entry).toList = '.' :: 'L' :: 'C' :: 'F' :: (toString entry).toList := by
  change (".LCF" ++ toString entry).toList = _
  simp

theorem dataLabel_inj {entry entry' : Nat} (h : dataLabel entry = dataLabel entry') :
    entry = entry' := by
  have hchars := congrArg String.toList h
  rw [toList_dataLabel, toList_dataLabel] at hchars
  simp only [List.cons_inj_right] at hchars
  exact toString_nat_inj (String.toList_inj.1 hchars)

/-- No entry of the data section is spelled like a block: the label of a block has an
underscore. -/
theorem labelOf_ne_dataLabel (f : Function) (id : BlockId) (entry : Nat) :
    f.labelOf id ≠ dataLabel entry := by
  intro h
  have hunderscore : '_' ∈ (dataLabel entry).toList := by
    rw [← h, Function.toList_labelOf]
    simp
  rw [toList_dataLabel] at hunderscore
  simp only [List.mem_cons, Char.reduceEq, false_or] at hunderscore
  cases isDigit_of_mem_toString hunderscore

theorem symbolName_inj {name name' : String} (h : symbolName name = symbolName name') :
    name = name' := by
  have hmarked : ∀ name, "main" ≠ "_cn_" ++ name := by
    intro name heq
    have hchars := congrArg String.toList heq
    simp at hchars
  unfold symbolName at h
  split at h
  · rename_i hname
    split at h
    · rename_i hname'
      exact hname.trans hname'.symm
    · exact absurd (hname ▸ h) (hmarked name')
  · split at h
    · rename_i hname'
      exact absurd (hname' ▸ h.symm) (hmarked name)
    · exact (String.append_right_inj "_cn_").1 h

/-- The labels of functions do not start with a dot, and none is the entry point. -/
theorem symbolName_ne {name label : String} (h : label.toList.head? = some '.' ∨ label = "_start") :
    symbolName name ≠ label := by
  rintro rfl
  unfold symbolName at h
  split at h
  · rename_i hname
    subst hname
    revert h
    decide
  · change ("_cn_" ++ name).toList.head? = _ ∨ "_cn_" ++ name = _ at h
    rw [← String.toList_inj] at h
    simp at h

theorem head_labelOf (f : Function) (id : BlockId) : (f.labelOf id).toList.head? = some '.' := by
  rw [Function.toList_labelOf]
  rfl

theorem head_dataLabel (entry : Nat) : (dataLabel entry).toList.head? = some '.' := by
  rw [toList_dataLabel]
  rfl

/-! ## The labels of a module -/

namespace Flow

def Function.labelNames (f : Function) : List String :=
  symbolName f.name :: f.preorder.map f.labelOf

def Module.labelNames (m : Module) : List String :=
  "_start" :: (m.functions.flatMap Function.labelNames
    ++ (List.range m.pool.entries.length).map dataLabel)

theorem Function.nodup_labelNames (f : Function) : f.labelNames.Nodup := by
  refine List.nodup_cons.2 ⟨fun h => ?_, ?_⟩
  · obtain ⟨id, -, heq⟩ := List.mem_map.1 h
    exact symbolName_ne (.inl (head_labelOf ..)) heq.symm
  · exact f.nodup_preorder.map_on fun id _ id' _ h => labelSuffix_inj (labelOf_inj h).2

theorem Function.disjoint_labelNames {f g : Function} (h : f.name ≠ g.name) :
    f.labelNames.Disjoint g.labelNames := by
  intro label hf hg
  rcases List.mem_cons.1 hf with rfl | hf
  · rcases List.mem_cons.1 hg with heq | hg
    · exact h (symbolName_inj heq)
    · obtain ⟨id, -, heq⟩ := List.mem_map.1 hg
      exact symbolName_ne (.inl (head_labelOf ..)) heq.symm
  · obtain ⟨id, -, rfl⟩ := List.mem_map.1 hf
    rcases List.mem_cons.1 hg with heq | hg
    · exact symbolName_ne (.inl (head_labelOf ..)) heq.symm
    · obtain ⟨id', -, heq⟩ := List.mem_map.1 hg
      exact h (labelOf_inj heq).1.symm

theorem Module.nodup_labelNames {m : Module} (h : (m.functions.map (·.name)).Nodup) :
    m.labelNames.Nodup := by
  have hfunctions : (m.functions.flatMap Function.labelNames).Nodup := by
    refine List.nodup_flatMap.2 ⟨fun f _ => f.nodup_labelNames, ?_⟩
    exact (List.pairwise_map.1 h).imp Function.disjoint_labelNames
  have hdata : ((List.range m.pool.entries.length).map dataLabel).Nodup :=
    List.nodup_range.map_on fun _ _ _ _ => dataLabel_inj
  have hstart : ∀ {label : String}, label.toList.head? = some '.' → "_start" ≠ label := by
    rintro _ hhead rfl
    revert hhead
    decide
  refine List.nodup_cons.2 ⟨fun hmem => ?_, List.nodup_append.2 ⟨hfunctions, hdata, ?_⟩⟩
  · rcases List.mem_append.1 hmem with hmem | hmem
    · obtain ⟨f, -, hmem⟩ := List.mem_flatMap.1 hmem
      rcases List.mem_cons.1 hmem with heq | hmem
      · exact symbolName_ne (.inr rfl) heq.symm
      · obtain ⟨id, -, heq⟩ := List.mem_map.1 hmem
        exact hstart (head_labelOf ..) heq.symm
    · obtain ⟨entry, -, heq⟩ := List.mem_map.1 hmem
      exact hstart (head_dataLabel _) heq.symm
  · intro label hlabel data hentry
    obtain ⟨f, -, hlabel⟩ := List.mem_flatMap.1 hlabel
    obtain ⟨entry, -, rfl⟩ := List.mem_map.1 hentry
    rcases List.mem_cons.1 hlabel with rfl | hlabel
    · exact symbolName_ne (.inl (head_dataLabel _))
    · obtain ⟨id, -, rfl⟩ := List.mem_map.1 hlabel
      exact labelOf_ne_dataLabel f id entry

end Flow

/-! ## The labels of lines -/

theorem labels_map_eq_nil {α : Type} {g : α → Line} (h : ∀ a, (g a).label? = none) (l : List α) :
    (l.map g).filterMap Line.label? = [] := by
  rw [List.filterMap_map, List.filterMap_eq_nil_iff]
  exact fun a _ => h a

theorem Codegen.Context.labels_prologue (context : Context) (debugInfo : Bool) :
    (context.prologue debugInfo).filterMap Line.label? = [symbolName context.function.name] := by
  have hframe : (enterFrame context.placement.frameSize).filterMap Line.label? = [] := by
    unfold enterFrame
    split <;> rfl
  unfold prologue
  rw [List.filterMap_append, List.filterMap_append, List.filterMap_append, hframe,
    labels_map_eq_nil fun _ => rfl]
  split
  · rw [labels_map_eq_nil fun _ => rfl]
    rfl
  · rfl

namespace Flow.Function

variable {table : SymbolTable} {f : Function} {live : Arena (List (Point VariableSet))}
  {p : Placement} {id : BlockId} {i : Instruction} {point : Point VariableSet}

section

variable (h : f.Ready table)

include h

theorem Ready.exists_instructions (hid : id ∈ f.preorder) :
    ∃ body, f.instructionsOf id = .label id :: body ∧ ∀ i ∈ body, i.isLabel = false := by
  obtain ⟨block, hb⟩ :=
    exists_block? (lt_size_of_mem_preorder h.standard.wellFormed.linked.exit hid)
  rw [instructionsOf_of_block? hb]
  exact (h.standard.wellFormed.agrees hb).exists_label

section

variable (hp : f.Placed table live p) (pool : Pool Constant) (color : Bool) (hid : id ∈ f.preorder)

include hp pool color hid

/-- What refers to a label or to the data section in the code of an instruction. -/
theorem Ready.refers (hmem : (i, point) ∈ annotated f live id) :
    (Context.mk table f p pool color).Refers i
      ((Context.mk table f p pool color).codeOf point.after i) :=
  Context.refers_select (h.covers hp pool color hid hmem).select_eq

theorem Ready.labels_codeOf (hmem : (i, point) ∈ annotated f live id) :
    ((Context.mk table f p pool color).codeOf point.after i).filterMap Line.label? =
      if i.isLabel then [f.labelOf id] else [] := by
  obtain ⟨body, hbody, hplain⟩ := h.exists_instructions hid
  have hi := hp.mem_instructionsOf hid hmem
  rw [hbody] at hi
  rcases List.mem_cons.1 hi with rfl | hi
  · have hcode : (Context.mk table f p pool color).select point.after (.label id) =
        .ok [.label (f.labelOf id)] := by
      rw [Context.select, Context.labelOf_eq_ok ((h.covers hp pool color hid hmem).label rfl)]
      rfl
    rw [Context.codeOf, hcode]
    rfl
  · rw [if_neg (by rw [hplain i hi]; decide), List.filterMap_eq_nil_iff]
    intro line hline
    cases line with
    | label name =>
      obtain ⟨_, rfl⟩ := (h.refers hp pool color hid hmem).labels hline
      cases hplain _ hi
    | _ => rfl

theorem Ready.labels_linesOf (jump : Option BlockId) :
    ((Context.mk table f p pool color).linesOf live id jump).filterMap Line.label? =
      [f.labelOf id] := by
  have hjump : (jump.toList.map fun target => Line.instr (.jmp (f.labelOf target))).filterMap
      Line.label? = [] :=
    labels_map_eq_nil (fun _ => rfl) _
  have hcode : (annotated f live id).flatMap (fun q =>
      (.comment (q.1.display table color) ::
        (Context.mk table f p pool color).codeOf q.2.after q.1).filterMap Line.label?) =
      (annotated f live id).flatMap fun q => if q.1.isLabel then [f.labelOf id] else [] :=
    List.flatMap_congr fun q hq => h.labels_codeOf hp pool color hid hq
  obtain ⟨body, hbody, hplain⟩ := h.exists_instructions hid
  have hrest : body.flatMap (fun i => if i.isLabel then [f.labelOf id] else []) = [] := by
    rw [List.flatMap_eq_nil_iff]
    intro i hi
    rw [hplain i hi]
    rfl
  calc ((Context.mk table f p pool color).linesOf live id jump).filterMap Line.label?
    _ = (annotated f live id).flatMap fun q => if q.1.isLabel then [f.labelOf id] else [] := by
      rw [Context.linesOf, List.filterMap_append, hjump, List.append_nil, List.filterMap_flatMap]
      exact hcode
    _ = (f.instructionsOf id).flatMap fun i => if i.isLabel then [f.labelOf id] else [] := by
      rw [← hp.covers hid, List.flatMap_map]
    _ = [f.labelOf id] := by
      rw [hbody, List.flatMap_cons, hrest]
      rfl

end

theorem Ready.labels_ofFunction {pool : Pool Constant} {commentary : Commentary} {r : Routine}
    (hr : Routine.ofFunction table pool commentary f = .ok r) :
    r.lines.filterMap Line.label? = f.labelNames := by
  obtain ⟨live, p, hp⟩ := h.exists_placed
  cases hr.symm.trans (h.ofFunction_eq hp pool commentary)
  let context : Context := ⟨table, f, p, pool, commentary.color⟩
  have hblocks : (f.layoutOf f.preorder).flatMap (fun entry =>
      (context.linesOf live entry.1 entry.2).filterMap Line.label?) =
      (f.layoutOf f.preorder).flatMap fun entry => [f.labelOf entry.1] := by
    refine List.flatMap_congr fun entry hentry => ?_
    have hid : entry.1 ∈ f.preorder := by
      rw [← f.map_fst_layoutOf f.preorder]
      exact List.mem_map_of_mem hentry
    exact h.labels_linesOf hp pool commentary.color hid entry.2
  calc (context.prologue commentary.debugInfo ++ (f.layoutOf f.preorder).flatMap fun entry =>
        context.linesOf live entry.1 entry.2).filterMap Line.label?
    _ = symbolName f.name :: (f.layoutOf f.preorder).flatMap fun entry => [f.labelOf entry.1] := by
      rw [List.filterMap_append, context.labels_prologue, List.filterMap_flatMap, hblocks]
      rfl
    _ = symbolName f.name :: ((f.layoutOf f.preorder).map Prod.fst).map f.labelOf := by
      rw [List.map_map, List.map_eq_flatMap]
      rfl
    _ = f.labelNames := by
      rw [f.map_fst_layoutOf]
      rfl

end

end Flow.Function

/-! ## The data section -/

namespace Machine

variable {n : Nat} {constants : List Constant} {lines : List Line}

section

variable (h : dataEntriesFrom n constants = .ok lines)

include h

theorem labels_dataEntriesFrom :
    lines.filterMap Line.label? = (List.range' n constants.length).map dataLabel := by
  induction constants generalizing n lines with
  | nil =>
    cases h
    rfl
  | cons c constants ih =>
    obtain ⟨first, hfirst, h⟩ := bind_eq_ok.1 h
    obtain ⟨others, hothers, h⟩ := bind_eq_ok.1 h
    obtain ⟨text, -, hfirst⟩ := bind_eq_ok.1 hfirst
    cases h
    cases hfirst
    change dataLabel n :: others.filterMap Line.label? = _
    rw [ih hothers]
    rfl

theorem instr_not_mem_dataEntriesFrom (i : Instr) : .instr i ∉ lines := by
  induction constants generalizing n lines with
  | nil =>
    cases h
    exact List.not_mem_nil
  | cons c constants ih =>
    obtain ⟨first, hfirst, h⟩ := bind_eq_ok.1 h
    obtain ⟨others, hothers, h⟩ := bind_eq_ok.1 h
    obtain ⟨text, -, hfirst⟩ := bind_eq_ok.1 hfirst
    cases h
    cases hfirst
    simpa using ih hothers

/-- Behind the label of an entry stands what is laid down for its constant. -/
theorem infix_dataEntriesFrom {entry : Nat} {c : Constant} (hc : constants[entry]? = some c) :
    ∃ text, dataDirective c = .ok text ∧
      [.label (dataLabel (n + entry)), .directive text] <:+: lines := by
  induction constants generalizing n lines entry with
  | nil => cases hc
  | cons c' constants ih =>
    obtain ⟨first, hfirst, h⟩ := bind_eq_ok.1 h
    obtain ⟨others, hothers, h⟩ := bind_eq_ok.1 h
    obtain ⟨text, htext, hfirst⟩ := bind_eq_ok.1 hfirst
    cases h
    cases hfirst
    cases entry with
    | zero =>
      cases hc
      exact ⟨text, htext, [_], others, rfl⟩
    | succ entry =>
      obtain ⟨text', htext', hinfix⟩ := ih hothers hc
      rw [Nat.add_right_comm] at hinfix
      exact ⟨text', htext', hinfix.trans (List.suffix_append _ others).isInfix⟩

end

end Machine

/-! ## Programs -/

namespace Codegen

variable {commentary : Commentary} {m : Module} {assembly : Assembly}

theorem exists_of_assemble (h : assemble commentary m = .ok assembly) : ∃ data,
    m.functions.mapM (Routine.ofFunction m.symbols m.pool commentary) = .ok assembly.routines ∧
    dataEntries m.pool = .ok data ∧
    assembly.lines = entryPoint m.returnsStatus ++ [Line.heading "user code"]
      ++ [Line.blank].intercalate (assembly.routines.map Routine.lines)
      ++ [Line.blank, .heading "floating point constants", .directive ".data"] ++ data := by
  obtain ⟨routines, hroutines, h⟩ := bind_eq_ok.1 h
  obtain ⟨data, hdata, h⟩ := bind_eq_ok.1 h
  cases h
  exact ⟨data, hroutines, hdata, rfl⟩

theorem intercalate_cons {α : Type} (separator : α) (l : List α) (ls : List (List α)) :
    [separator].intercalate (l :: ls) = l ++ ls.flatMap (separator :: ·) := by
  induction ls generalizing l with
  | nil => simp
  | cons l' ls ih => simp [ih]

theorem labels_intercalate (codes : List (List Line)) :
    ([Line.blank].intercalate codes).filterMap Line.label? =
      codes.flatMap fun code => code.filterMap Line.label? := by
  cases codes with
  | nil => rfl
  | cons code codes =>
    rw [intercalate_cons, List.filterMap_append, List.filterMap_flatMap]
    rfl

theorem infix_intercalate {code : List Line} {codes : List (List Line)} (h : code ∈ codes) :
    code <:+: [Line.blank].intercalate codes := by
  cases codes with
  | nil => cases h
  | cons first codes =>
    rw [intercalate_cons]
    rcases List.mem_cons.1 h with rfl | h
    · exact (List.prefix_append ..).isInfix
    · obtain ⟨before, behind, rfl⟩ := List.append_of_mem h
      refine ⟨first ++ before.flatMap (Line.blank :: ·) ++ [Line.blank],
        behind.flatMap (Line.blank :: ·), ?_⟩
      simp

theorem exists_of_mem_intercalate {line : Line} {codes : List (List Line)}
    (h : line ∈ [Line.blank].intercalate codes) : line = .blank ∨ ∃ code ∈ codes, line ∈ code := by
  cases codes with
  | nil => cases h
  | cons first codes =>
    rw [intercalate_cons] at h
    simp only [List.mem_append, List.mem_flatMap, List.mem_cons] at h
    rcases h with h | ⟨code, hcode, rfl | h⟩
    · exact .inr ⟨first, List.mem_cons_self, h⟩
    · exact .inl rfl
    · exact .inr ⟨code, List.mem_cons_of_mem _ hcode, h⟩

theorem labels_assemble (hm : m.Ready) (h : assemble commentary m = .ok assembly) :
    assembly.lines.filterMap Line.label? = m.labelNames := by
  obtain ⟨data, hroutines, hdata, hlines⟩ := exists_of_assemble h
  have hcode : assembly.routines.map (fun r => r.lines.filterMap Line.label?) =
      m.functions.map Function.labelNames := by
    refine (map_eq_map_of_forall₂ (forall₂_imp_of_mem ?_ (forall₂_of_mapM hroutines))).symm
    intro f r hf _ hr
    exact ((hm.functions f hf).labels_ofFunction hr).symm
  have hentry : (entryPoint m.returnsStatus ++ [Line.heading "user code"]).filterMap Line.label? =
      ["_start"] := by
    unfold entryPoint
    split <;> rfl
  have hdata := labels_dataEntriesFrom hdata
  rw [← List.range_eq_range'] at hdata
  rw [hlines, List.filterMap_append, List.filterMap_append, List.filterMap_append, hentry,
    labels_intercalate, hdata, List.flatMap_map, List.flatMap_def, hcode, ← List.flatMap_def]
  simp [Module.labelNames, Line.label?]

end Codegen

end Cinder
