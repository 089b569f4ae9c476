import Cinder.Proofs.Typing.Checking

/-!
# Well-typed programs from source texts

The headings of all functions are typed before any body, so every body is checked
in a scope whose functions are known.
-/

namespace Cinder

/-! ## Headings -/

structure Definition.TypedIn {τ : Type} (definition : Definition SymbolId τ) (table : SymbolTable) :
    Prop where
  function : table.get? definition.symbol = some ⟨definition.name.name,
    .function (definition.parameters.map (·.symbol)) (definition.returnType.map (·.ty))⟩
  parameters : ∀ p ∈ definition.parameters,
    table.get? p.symbol = some ⟨p.name.name, .var (some p.ty.ty) .parameter⟩

variable {table : SymbolTable} {next : Nat}

theorem exists_setTypes {parameters : List (Parameter SymbolId)}
    (hnodup : (parameters.map (·.symbol)).Nodup)
    (h : ∀ p ∈ parameters, table.get? p.symbol = some ⟨p.name.name, .var none .parameter⟩) :
    ∃ table', parameters.foldlM
        (fun table p => (liftM (table.setType p.symbol p.ty.ty) : Except Failure SymbolTable))
          table = .ok table' ∧
      table'.size = table.size ∧
      (∀ id, id ∉ parameters.map (·.symbol) → table'.get? id = table.get? id) ∧
      ∀ p ∈ parameters,
        table'.get? p.symbol = some ⟨p.name.name, .var (some p.ty.ty) .parameter⟩ := by
  induction parameters generalizing table with
  | nil => exact ⟨table, rfl, rfl, fun _ _ => rfl, by simp⟩
  | cons p rest ih =>
    obtain ⟨hp, hnodup⟩ := List.nodup_cons.1 hnodup
    have hget := h p (by simp)
    have hset : table.setType p.symbol p.ty.ty =
        .ok (table.setKind p.symbol (.var (some p.ty.ty) .parameter)) := by
      rw [SymbolTable.setType, SymbolTable.get_eq_ok.2 hget]
      rfl
    have hkeep : ∀ id, id ≠ p.symbol →
        (table.setKind p.symbol (.var (some p.ty.ty) .parameter)).get? id = table.get? id :=
      fun id hid => by rw [SymbolTable.get?_setKind hget, if_neg hid]
    have hother : ∀ q ∈ rest, q.symbol ≠ p.symbol :=
      fun q hq heq => hp (List.mem_map.2 ⟨q, hq, heq⟩)
    obtain ⟨table', hfold, hsize, hsame, htyped⟩ :=
      @ih (table.setKind p.symbol (.var (some p.ty.ty) .parameter)) hnodup (by
        intro q hq
        rw [hkeep _ (hother q hq)]
        exact h q (by simp [hq]))
    refine ⟨table', ?_, by rw [hsize, SymbolTable.size_setKind], ?_, ?_⟩
    · rw [List.foldlM_cons, hset]
      exact hfold
    · intro id hid
      rw [List.map_cons, List.mem_cons, not_or] at hid
      rw [hsame id hid.2, hkeep id hid.1]
    · intro q hq
      rcases List.mem_cons.1 hq with rfl | hq
      · rw [hsame _ hp, SymbolTable.get?_setKind hget, if_pos rfl]
      · exact htyped q hq

theorem Definition.exists_declareTypes {definition : Definition SymbolId Unit}
    (hn : Signature.Numbered next [definition.signature])
    (hd : definition.signature.DeclaredIn table) :
    ∃ table', definition.declareTypes table = .ok table' ∧ table'.size = table.size ∧
      (∀ id, id < next ∨ next + 1 + definition.parameters.length ≤ id →
        table'.get? id = table.get? id) ∧
      definition.TypedIn table' := by
  obtain ⟨hsymbol, hparameters, -⟩ := hn
  dsimp only [Definition.signature] at hsymbol hparameters
  have hmem : ∀ id, id ∈ definition.parameters.map (·.symbol) →
      next + 1 ≤ id ∧ id < next + 1 + definition.parameters.length := by
    intro id hid
    rw [hparameters] at hid
    exact List.mem_range'_1.1 hid
  have hnodup : (definition.parameters.map (·.symbol)).Nodup := by
    rw [hparameters]
    exact List.nodup_range'
  obtain ⟨table₁, hfold, hsize, hsame, htyped⟩ := exists_setTypes hnodup hd.2
  have hself : definition.symbol ∉ definition.parameters.map (·.symbol) := by
    intro h
    have := (hmem _ h).1
    rw [hsymbol] at this
    omega
  have hget : table₁.get? definition.symbol = some ⟨definition.name.name,
      .function (definition.parameters.map (·.symbol)) none⟩ := by
    rw [hsame _ hself]
    exact hd.1
  refine ⟨table₁.setKind definition.symbol (.function (definition.parameters.map (·.symbol))
    (definition.returnType.map (·.ty))), ?_, ?_, ?_, ?_, ?_⟩
  · rw [Definition.declareTypes, hfold, bind_ok, SymbolTable.get_eq_ok.2 hget]
    rfl
  · rw [SymbolTable.size_setKind, hsize]
  · intro id hid
    rw [SymbolTable.get?_setKind hget, if_neg, hsame]
    · intro h
      have := hmem id h
      omega
    · rw [hsymbol]
      rintro rfl
      omega
  · rw [SymbolTable.get?_setKind hget, if_pos rfl]
  · intro p hp
    have hne : p.symbol ≠ definition.symbol :=
      fun heq => hself (heq ▸ List.mem_map_of_mem hp)
    rw [SymbolTable.get?_setKind hget, if_neg hne]
    exact htyped p hp

theorem Signature.Numbered.lt {signatures : List Signature} (h : Numbered next signatures)
    {s : Signature} (hs : s ∈ signatures) :
    next ≤ s.symbol ∧ s.symbol < next + count signatures ∧
      ∀ p ∈ s.parameters, next ≤ p.symbol ∧ p.symbol < next + count signatures := by
  induction signatures generalizing next with
  | nil => cases hs
  | cons first rest ih =>
    obtain ⟨hsymbol, hparameters, hrest⟩ := h
    simp only [count]
    rcases List.mem_cons.1 hs with rfl | hs
    · rw [hsymbol]
      refine ⟨Nat.le_refl _, Nat.lt_add_of_pos_right (by omega), fun p hp => ?_⟩
      have hmem := List.mem_map_of_mem (f := fun p : Parameter SymbolId => p.symbol) hp
      rw [hparameters, List.mem_range'_1] at hmem
      exact ⟨Nat.le_trans (Nat.le_succ _) hmem.1, Nat.lt_of_lt_of_le hmem.2 (by omega)⟩
    · obtain ⟨hle, hlt, hps⟩ := ih hrest hs
      refine ⟨Nat.le_trans (by omega) hle, Nat.lt_of_lt_of_le hlt (by omega), fun p hp => ?_⟩
      obtain ⟨hle, hlt⟩ := hps p hp
      exact ⟨Nat.le_trans (by omega) hle, Nat.lt_of_lt_of_le hlt (by omega)⟩

theorem Definition.TypedIn.congr {τ : Type} {definition : Definition SymbolId τ}
    {table' : SymbolTable} (h : definition.TypedIn table)
    (hsame : ∀ id, id = definition.symbol ∨ id ∈ definition.parameters.map (·.symbol) →
      table'.get? id = table.get? id) : definition.TypedIn table' := by
  refine ⟨?_, fun p hp => ?_⟩
  · rw [hsame _ (.inl rfl)]
    exact h.function
  · rw [hsame _ (.inr (List.mem_map.2 ⟨p, hp, rfl⟩))]
    exact h.parameters p hp

theorem Definition.TypedIn.of_signature {τ τ' : Type} {d : Definition SymbolId τ}
    {e : Definition SymbolId τ'} (h : d.TypedIn table) (hsignature : e.signature = d.signature)
    (hreturn : e.returnType = d.returnType) :
    e.TypedIn table := by
  obtain ⟨hname, hsymbol, hparameters⟩ :
      e.name.name = d.name.name ∧ e.symbol = d.symbol ∧ e.parameters = d.parameters := by
    simpa [Definition.signature] using hsignature
  refine ⟨?_, ?_⟩
  · rw [hsymbol, hname, hparameters, hreturn]
    exact h.function
  · rw [hparameters]
    exact h.parameters

theorem Definition.exists_declareTypesAll {functions : List (Definition SymbolId Unit)}
    (hn : Signature.Numbered next (functions.map Definition.signature))
    (hd : ∀ d ∈ functions, d.signature.DeclaredIn table) :
    ∃ table', functions.foldlM Definition.declareTypes table = .ok table' ∧
      table'.size = table.size ∧
      (∀ id, id < next ∨ next + Signature.count (functions.map Definition.signature) ≤ id →
        table'.get? id = table.get? id) ∧
      ∀ d ∈ functions, d.TypedIn table' := by
  induction functions generalizing table next with
  | nil => exact ⟨table, rfl, rfl, fun _ _ => rfl, by simp⟩
  | cons d rest ih =>
    obtain ⟨hsymbol, hparameters, hrest⟩ := hn
    obtain ⟨table₁, hfirst, hsize₁, hsame₁, htyped₁⟩ :=
      d.exists_declareTypes ⟨hsymbol, hparameters, trivial⟩ (hd d (by simp))
    -- the headings behind this one have not been touched
    have hd₁ : ∀ e ∈ rest, e.signature.DeclaredIn table₁ := by
      intro e he
      obtain ⟨hle, -, hps⟩ := hrest.lt (List.mem_map_of_mem he)
      obtain ⟨hf, hp⟩ := hd e (by simp [he])
      refine ⟨?_, fun p hmem => ?_⟩
      · rw [hsame₁ _ (.inr hle)]
        exact hf
      · rw [hsame₁ _ (.inr (hps p hmem).1)]
        exact hp p hmem
    obtain ⟨table₂, hfold, hsize₂, hsame₂, htyped₂⟩ := ih hrest hd₁
    refine ⟨table₂, ?_, hsize₂.trans hsize₁, ?_, ?_⟩
    · rw [List.foldlM_cons, hfirst]
      exact hfold
    · intro id hid
      simp only [List.map_cons, Signature.count] at hid
      dsimp only [Definition.signature] at hid hsame₂
      rw [hsame₂ id (by omega), hsame₁ id (by omega)]
    · intro e he
      rcases List.mem_cons.1 he with rfl | he
      · refine htyped₁.congr fun id hid => hsame₂ id (.inl ?_)
        dsimp only [Definition.signature] at hsymbol hparameters ⊢
        rcases hid with rfl | hid
        · rw [hsymbol]
          omega
        · rw [hparameters] at hid
          exact (List.mem_range'_1.1 hid).2
      · exact htyped₂ e he

/-! ## Programs -/

theorem Signature.find?_scope {signatures : List Signature} {name : String} {r : Referent SymbolId}
    (h : (scope signatures).find? name = some r) :
    ∃ s ∈ signatures, s.name = name ∧ r = .function s.symbol := by
  obtain ⟨l, l', hsplit, -⟩ := List.lookup_eq_some_iff.1 h
  have hmem : (name, r) ∈ scope signatures := by
    rw [hsplit]
    simp
  simp only [scope, List.mem_reverse, List.mem_map, Prod.mk.injEq] at hmem
  obtain ⟨s, hs, hname, hr⟩ := hmem
  exact ⟨s, hs, hname, hr.symm⟩

theorem Signature.find?_scope_ne_var (signatures : List Signature) (name : String)
    (symbol : SymbolId) : (scope signatures).find? name ≠ some (.var symbol) := by
  intro hfind
  obtain ⟨s, -, -, hr⟩ := find?_scope hfind
  cases hr

theorem Signature.typedIn_scope {functions : List (Definition SymbolId Unit)}
    (h : ∀ d ∈ functions, d.TypedIn table) :
    (scope (functions.map Definition.signature)).TypedIn table := by
  refine ⟨fun hfind => ?_, fun hfind => ?_⟩
  · exact absurd hfind (find?_scope_ne_var _ _ _)
  · obtain ⟨s, hs, -, hr⟩ := find?_scope hfind
    cases hr
    obtain ⟨d, hd, rfl⟩ := List.mem_map.1 hs
    refine ⟨_, _, SymbolTable.function?_eq_some.2 ⟨_, (h d hd).function⟩, fun p hp => ?_⟩
    obtain ⟨q, hq, rfl⟩ := List.mem_map.1 hp
    exact ⟨_, SymbolTable.type?_eq_some.2 ⟨_, _, (h d hd).parameters q hq⟩⟩

theorem Scope.TypedIn.declareParameters {parameters : List (Parameter SymbolId)} {scope : Scope}
    (h : scope.TypedIn table) (hp : ∀ p ∈ parameters, ∃ ty, table.type? p.symbol = some ty) :
    (scope.declareParameters parameters).TypedIn table := by
  induction parameters generalizing scope with
  | nil => exact h
  | cons p rest ih =>
    obtain ⟨ty, hty⟩ := hp p (by simp)
    exact ih (h.declare hty) fun q hq => hp q (by simp [hq])

namespace Definition

structure Checked (scope : Scope) (next : Nat) (table : SymbolTable)
    (definition : Definition SymbolId Unit)
    (result : Definition SymbolId (Option Ty) × SymbolTable) : Prop where
  signature : result.1.signature = definition.signature
  returnType : result.1.returnType = definition.returnType
  learns : table.Learns result.2 next definition.body.declarations
  declarations : result.1.body.declarations = definition.body.declarations
  bound : result.1.body.Bound (scope.declareParameters definition.parameters) next
  typed : result.1.body.WellTyped result.2 (definition.returnType.map (·.ty))
  returns : definition.returnType.isSome = true → result.1.body.returns = true

theorem safe_check {scope : Scope} {table : SymbolTable} {next : Nat}
    {definition : Definition SymbolId Unit} (ht : scope.TypedIn table)
    (hd : definition.TypedIn table)
    (hb : definition.body.Bound (scope.declareParameters definition.parameters) next)
    (hu : table.Untyped next definition.body.declarations) :
    Safe (definition.Checked scope next table) (definition.check table) := by
  have hscope : (scope.declareParameters definition.parameters).TypedIn table :=
    ht.declareParameters fun p hp => ⟨_, SymbolTable.type?_eq_some.2 ⟨_, _, hd.parameters p hp⟩⟩
  obtain ⟨span, name, parameters, returnType, body, symbol⟩ := definition
  unfold check
  refine Safe.bind (Block.safe_check hscope hb hu) fun r hr => ?_
  cases returnType with
  | none => exact ⟨rfl, rfl, hr.learns, hr.declarations, hr.bound, hr.typed, by simp⟩
  | some ref =>
    dsimp only [Option.map]
    split
    · exact trivial
    · rename_i hreturns
      exact ⟨rfl, rfl, hr.learns, hr.declarations, hr.bound, hr.typed,
        fun _ => by simpa using hreturns⟩

theorem safe_checkAll {scope : Scope} {functions : List (Definition SymbolId Unit)}
    {table : SymbolTable} {next : Nat} (ht : scope.TypedIn table)
    (hd : ∀ d ∈ functions, d.TypedIn table)
    (hb : BoundAll scope next functions)
    (hu : table.Untyped next (declarationsAll functions))
    (hlt : ∀ d ∈ functions, d.symbol < next ∧ ∀ p ∈ d.parameters, p.symbol < next) :
    Safe (fun r => table.Learns r.2 next (declarationsAll functions) ∧
        r.1.map Definition.signature = functions.map Definition.signature ∧
        declarationsAll r.1 = declarationsAll functions ∧
        BoundAll scope next r.1 ∧
        ∀ d ∈ r.1, d.TypedIn r.2 ∧ d.body.WellTyped r.2 (d.returnType.map (·.ty)) ∧
          (d.returnType.isSome = true → d.body.returns = true))
      (checkAll table functions) := by
  induction functions generalizing table next with
  | nil => exact ⟨.refl table next, rfl, rfl, trivial, by simp⟩
  | cons d rest ih =>
    rw [checkAll]
    have hu₁ : table.Untyped next d.body.declarations := hu.mono (Nat.le_add_right ..)
    refine Safe.bind (safe_check ht (hd d (by simp)) hb.1 hu₁) fun r hr => ?_
    have hle := hr.learns.le hu₁
    have hu₂ := hr.learns.untyped hu
    -- headings lie below the local variables
    have hd₂ : ∀ e ∈ d :: rest, e.TypedIn r.2 := by
      intro e he
      refine (hd e he).congr fun id hid => hr.learns.keep (.inl ?_)
      obtain ⟨hsymbol, hparameters⟩ := hlt e he
      rcases hid with rfl | hid
      · exact hsymbol
      · obtain ⟨p, hp, rfl⟩ := List.mem_map.1 hid
        exact hparameters p hp
    have hlt₂ : ∀ e ∈ rest, e.symbol < next + d.body.declarations ∧
        ∀ p ∈ e.parameters, p.symbol < next + d.body.declarations := by
      intro e he
      obtain ⟨hsymbol, hparameters⟩ := hlt e (by simp [he])
      exact ⟨Nat.lt_add_right _ hsymbol, fun p hp => Nat.lt_add_right _ (hparameters p hp)⟩
    refine Safe.bind (ih (ht.mono hle) (fun e he => hd₂ e (by simp [he])) hb.2 hu₂ hlt₂) ?_
    rintro r' ⟨hlearns, hsignatures, hdeclarations, hbound, htyped⟩
    have hparameters : r.1.parameters = d.parameters := congrArg Signature.parameters hr.signature
    refine ⟨hr.learns.trans hlearns, ?_, ?_, ⟨?_, ?_⟩, ?_⟩
    · simp [hr.signature, hsignatures]
    · simp only [declarationsAll, hr.declarations, hdeclarations]
    · rw [hparameters]
      exact hr.bound
    · rw [hr.declarations]
      exact hbound
    · intro e he
      rcases List.mem_cons.1 he with rfl | he
      · have hle₂ := hlearns.le hu₂
        refine ⟨?_, ?_, ?_⟩
        · refine ((hd₂ d (by simp)).of_signature hr.signature hr.returnType).congr
            fun id hid => hlearns.keep (.inl ?_)
          obtain ⟨hsymbol, hps⟩ := hlt d (by simp)
          rw [hparameters] at hid
          rcases hid with rfl | hid
          · rw [show r.1.symbol = d.symbol from congrArg Signature.symbol hr.signature]
            exact Nat.lt_add_right _ hsymbol
          · obtain ⟨p, hp, rfl⟩ := List.mem_map.1 hid
            exact Nat.lt_add_right _ (hps p hp)
        · rw [hr.returnType]
          exact hr.typed.mono hle₂
        · rw [hr.returnType]
          exact hr.returns
      · exact htyped e he

end Definition

namespace Program

/-- Every part of the program is well typed, and the table knows the types. -/
structure WellTyped (program : Program.Typed) (table : SymbolTable) : Prop where
  size : table.size =
    Signature.count program.signatures + Definition.declarationsAll program.functions
  headings : ∀ d ∈ program.functions, d.TypedIn table
  bodies : ∀ d ∈ program.functions, d.body.WellTyped table (d.returnType.map (·.ty))
  returns : ∀ d ∈ program.functions, d.returnType.isSome = true → d.body.returns = true
  locals : ∀ {id}, Signature.count program.signatures ≤ id → id < table.size →
    ∃ name ty, table.get? id = some ⟨name, .var (some ty) .user⟩

theorem safe_check {program : Program.Scoped} {table : SymbolTable} (hb : program.Bound)
    (hd : program.DeclaredIn table) :
    Safe (fun r => r.1.Bound ∧ r.1.WellTyped r.2 ∧ r.2.size = table.size)
      (program.check table) := by
  obtain ⟨functions⟩ := program
  obtain ⟨table₁, hfold, hsize₁, hsame₁, htyped₁⟩ :=
    Definition.exists_declareTypesAll hb.numbered fun d hmem =>
      hd.headings _ (List.mem_map_of_mem hmem)
  have hu : table₁.Untyped (Signature.count (functions.map Definition.signature))
      (Definition.declarationsAll functions) := by
    intro id hid hlt
    rw [hsame₁ id (.inr (by rw [Nat.zero_add]; exact hid))]
    exact hd.locals hid (by rw [hd.size]; exact hlt)
  have hlt : ∀ d ∈ functions, d.symbol < Signature.count (functions.map Definition.signature) ∧
      ∀ p ∈ d.parameters, p.symbol < Signature.count (functions.map Definition.signature) := by
    intro d hmem
    obtain ⟨-, hsymbol, hps⟩ := hb.numbered.lt (List.mem_map_of_mem hmem)
    rw [Nat.zero_add] at hsymbol hps
    exact ⟨hsymbol, fun p hp => (hps p hp).2⟩
  unfold check
  dsimp only
  rw [hfold, bind_ok]
  refine Safe.bind (Definition.safe_checkAll (Signature.typedIn_scope htyped₁) htyped₁ hb.bodies hu
    hlt) ?_
  rintro ⟨fs, table₂⟩ ⟨hlearns, hsignatures, hdeclarations, hbound, htyped⟩
  dsimp only at hlearns hsignatures hdeclarations hbound htyped
  have hsize₂ : table₂.size = table.size := hlearns.size.trans hsize₁
  have hsig : signatures (⟨fs⟩ : Program.Typed) = signatures (⟨functions⟩ : Program.Scoped) :=
    hsignatures
  refine ⟨⟨?_, ?_, ?_, ?_⟩, ⟨?_, fun d hmem => (htyped d hmem).1, fun d hmem => (htyped d hmem).2.1,
    fun d hmem => (htyped d hmem).2.2, ?_⟩, hsize₂⟩
  · rw [hsig]
    exact hb.names
  · rw [hsig]
    exact hb.parameterNames
  · rw [hsig]
    exact hb.numbered
  · rw [hsig]
    exact hbound
  · rw [hsig, hsize₂, hd.size, hdeclarations]
  · intro id hid hlt
    rw [hsig] at hid
    rw [hsize₂, hd.size] at hlt
    exact hlearns.typed hid hlt

end Program

/-! ## Source texts -/

namespace Program

/-- Accepted programs are bound and well typed, as long as their symbols can be
told apart. -/
theorem wellTyped_of_ofSource {text : String} {program : Program.Typed} {table : SymbolTable}
    (h : ofSource text = .ok (program, table)) (hfit : table.size ≤ UInt32.size) :
    program.Bound ∧ program.WellTyped table := by
  obtain ⟨parsed, hparse, h⟩ := bind_eq_ok.1 h
  obtain ⟨⟨bound, table₀⟩, hresolve, h⟩ := bind_eq_ok.1 h
  rw [bindNames_eq_ok] at hresolve
  dsimp only at h
  have hparsed := (delivers_lift_diagnostic (P := (Span.Within · text.toList))
    (delivers_parse text)).of_eq_ok hparse
  have hsourced := (delivers_resolve hparsed).of_eq_ok hresolve
  have hsize : table.size = table₀.size := ((delivers_check table₀ hsourced).of_eq_ok h).2
  obtain ⟨hbound, hdeclared⟩ := ((resolves _).of_eq_ok hresolve).2 (hsize ▸ hfit)
  obtain ⟨hbound', htyped, -⟩ := (safe_check hbound hdeclared).of_eq_ok h
  exact ⟨hbound', htyped⟩

end Program

end Cinder
