import Cinder.Proofs.Typing.Judgement

/-!
# Soundness of type checking

A bound statement is either rejected or comes out well typed; checking it never
runs into a broken invariant.
-/

namespace Cinder

/-! ## Safe computations -/

def Safe {α : Type} (P : α → Prop) : Except Failure α → Prop
  | .ok a => P a
  | .error (.rejected _) => True
  | .error (.broken _) => False

namespace Safe

variable {α β : Type} {P : α → Prop} {Q : β → Prop}

variable {x : Except Failure α}

theorem bind {g : α → Except Failure β} (hx : Safe P x) (hg : ∀ a, P a → Safe Q (g a)) :
    Safe Q (x >>= g) := by
  match x, hx with
  | .ok a, hx => exact hg a hx
  | .error (.rejected _), _ => exact trivial

theorem mono {P' : α → Prop} (hx : Safe P x) (h : ∀ a, P a → P' a) :
    Safe P' x := by
  match x, hx with
  | .ok a, hx => exact h a hx
  | .error (.rejected _), _ => exact trivial

theorem of_eq_ok {a : α} (hx : Safe P x) (h : x = .ok a) : P a := by
  rw [h] at hx
  exact hx

theorem lift {x : Except Fault α} {a : α} {g : α → Except Failure β} (h : x = .ok a)
    (hg : Safe Q (g a)) : Safe Q ((liftM x : Except Failure α) >>= g) := by
  rw [h]
  exact hg

end Safe

/-! ## Checking expressions -/

namespace Literal

theorem defaultIntegerType_ne_bool (n : Int) : defaultIntegerType n ≠ .bool := by
  unfold defaultIntegerType
  cases h : [Ty.s32, Ty.s64, Ty.u64].find? (Ty.holds n) with
  | none => simp
  | some ty =>
    have hmem := List.mem_of_find?_eq_some h
    simp only [List.mem_cons, List.not_mem_nil, or_false] at hmem
    rcases hmem with rfl | rfl | rfl <;> simp

theorem safe_integerType (n : Int) (expected : Option Ty) (span : Span) :
    Safe (· ≠ .bool) (integerType n expected span) := by
  unfold integerType
  split
  · exact Ty.noConfusion
  · split
    · exact Ty.noConfusion
    · exact trivial
  · exact defaultIntegerType_ne_bool n

theorem safe_type (value : Literal) (negated : Bool) (expected : Option Ty) (span : Span) :
    Safe value.Fits (value.type negated expected span) := by
  cases value with
  | boolean b => rfl
  | float bits =>
    unfold Literal.type
    dsimp only
    split <;> rfl
  | integer n => exact safe_integerType _ expected span

end Literal

structure Checked (table : SymbolTable) (scope : Scope) (result : Expr SymbolId (Option Ty) × Ty) :
    Prop where
  typed : result.1.HasType table result.2
  bound : result.1.Bound scope

theorem safe_requireConversion (source target : Ty) (span : Span) :
    Safe (fun _ => source.converts target = true) (requireConversion source target span) := by
  unfold requireConversion
  split
  · assumption
  · exact trivial

variable {table : SymbolTable} {scope : Scope} {returnType : Option Ty}

theorem Expr.safe_coerce {expr : Expr SymbolId (Option Ty)} {source : Ty}
    (h : expr.HasType table source) (hb : expr.Bound scope) (target : Ty) :
    Safe (fun e => e.HasType table target ∧ e.Bound scope) (expr.coerce source target) := by
  unfold Expr.coerce
  split
  · rename_i heq
    exact ⟨heq ▸ h, hb⟩
  · rename_i hne
    exact Safe.bind (safe_requireConversion source target expr.span) fun _ hconv =>
      ⟨⟨rfl, rfl, source, h, hne, hconv⟩, hb⟩

theorem Expr.safe_requireArity {symbol : SymbolId} {parameters : List SymbolId}
    (h : table.function? symbol = some (parameters, returnType)) (callee : Ident) (supplied : Nat)
    (span : Span) :
    Safe (fun ps => ps = parameters ∧ parameters.length = supplied)
      (Expr.requireArity table callee symbol supplied span) := by
  unfold Expr.requireArity
  refine Safe.lift (SymbolTable.parametersOf_of_function? h) ?_
  split
  · rename_i hlength
    exact ⟨rfl, hlength⟩
  · exact trivial

namespace Expr

theorem check_negate {table : SymbolTable} {expected : Option Ty} {span : Span} {u : Unit}
    {operand : Expr SymbolId Unit} (h : ∀ inner u value, operand ≠ .literal inner u value) :
    (Expr.negate span u operand).check table expected = (do
      let (operand, ty) ← operand.check table expected
      if ty.isBoolean then reject .booleanNegation span
      return (.negate span (some ty) operand, ty)) := by
  rw [check]
  exact fun inner u value => h inner u value

/-- Two operands that have been checked are converted to their common type. -/
theorem safe_combine {table : SymbolTable} {scope : Scope}
    {lhs rhs : Expr SymbolId (Option Ty) × Ty} (hlhs : Checked table scope lhs)
    (hrhs : Checked table scope rhs) (span : Span) (op : Operator) (opSpan : Span) :
    Safe (Checked table scope) (do
      match lhs.2.unify rhs.2 with
      | none => reject (.operandMismatch lhs.2 rhs.2 op) opSpan
      | some ty =>
        if ty.isBoolean && !op.isComparison then reject (.booleanOperand op) opSpan
        let lhs ← lhs.1.coerce lhs.2 ty
        let rhs ← rhs.1.coerce rhs.2 ty
        let result := if op.isComparison then .bool else ty
        return (.binary span (some result) op opSpan lhs rhs, result)) := by
  cases hunify : lhs.2.unify rhs.2 with
  | none => exact trivial
  | some ty =>
    dsimp only
    split
    · exact trivial
    · rename_i hbool
      refine Safe.bind (safe_coerce hlhs.1 hlhs.2 ty) fun lhs' hlhs' => ?_
      refine Safe.bind (safe_coerce hrhs.1 hrhs.2 ty) fun rhs' hrhs' => ?_
      refine ⟨⟨rfl, ty, hlhs'.1, hrhs'.1, ?_⟩, hlhs'.2, hrhs'.2⟩
      cases hop : op.isComparison with
      | true => rfl
      | false =>
        refine ⟨rfl, ?_⟩
        rintro rfl
        exact hbool (by simp [hop]; rfl)

mutual

theorem safe_check {table : SymbolTable} {scope : Scope} (ht : scope.TypedIn table)
    (expected : Option Ty) : ∀ {expr : Expr SymbolId Unit}, expr.Bound scope →
      Safe (Checked table scope) (expr.check table expected)
  | .literal span _ value, _ => by
    rw [check]
    exact Safe.bind (value.safe_type false expected span) fun ty hty => ⟨⟨rfl, hty⟩, trivial⟩
  | .ident span _ name symbol, hb => by
    rw [check]
    obtain ⟨ty, hty⟩ := ht.var hb
    exact Safe.lift (SymbolTable.typeOf_eq_ok.2 hty) ⟨⟨rfl, hty⟩, hb⟩
  | .call span _ callee symbol arguments, hb => by
    rw [check]
    obtain ⟨parameters, returnType, hf, hparameters⟩ := ht.function hb.1
    refine Safe.bind (safe_requireArity hf callee arguments.length span) ?_
    rintro ps ⟨rfl, hlength⟩
    refine Safe.bind (safe_checkArguments ht hb.2 hparameters hlength) ?_
    rintro es ⟨hes, hbs⟩
    refine Safe.lift (SymbolTable.returnTypeOf_of_function? hf) ?_
    cases returnType with
    | none => exact trivial
    | some ty => exact ⟨⟨rfl, ps, hf, hes⟩, hb.1, hbs⟩
  | .binary span _ op opSpan lhs rhs, hb => by
    rw [check]
    -- the operand that is checked first tells the other one its type
    split
    · refine Safe.bind (safe_check ht _ hb.2) fun rhs' hrhs => ?_
      refine Safe.bind (safe_check ht _ hb.1) fun lhs' hlhs => ?_
      exact safe_combine hlhs hrhs span op opSpan
    · refine Safe.bind (safe_check ht _ hb.1) fun lhs' hlhs => ?_
      refine Safe.bind (safe_check ht _ hb.2) fun rhs' hrhs => ?_
      exact safe_combine hlhs hrhs span op opSpan
  | .negate span u operand, hb => by
    by_cases hliteral : ∃ inner u value, operand = .literal inner u value
    · obtain ⟨inner, u, value, rfl⟩ := hliteral
      rw [check]
      refine Safe.bind (value.safe_type true expected inner) fun ty hty => ?_
      split
      · exact trivial
      · rename_i hbool
        refine ⟨⟨rfl, ⟨rfl, hty⟩, ?_⟩, trivial⟩
        rintro rfl
        exact hbool rfl
    · rw [check_negate fun inner u value h => hliteral ⟨inner, u, value, h⟩]
      refine Safe.bind (safe_check ht expected hb) fun r hr => ?_
      dsimp only
      split
      · exact trivial
      · rename_i hbool
        refine ⟨⟨rfl, hr.1, ?_⟩, hr.2⟩
        intro h
        exact hbool (by rw [h]; rfl)
  | .cast span _ operand target, hb => by
    rw [check]
    refine Safe.bind (safe_check ht none hb) fun r hr => ?_
    refine Safe.bind (safe_requireConversion r.2 target.ty span) fun _ hconv => ?_
    split
    · exact hr
    · rename_i hne
      exact ⟨⟨rfl, rfl, r.2, hr.1, hne, hconv⟩, hr.2⟩

theorem safe_checkArguments {table : SymbolTable} {scope : Scope} (ht : scope.TypedIn table) :
    ∀ {arguments : List (Expr SymbolId Unit)} {parameters : List SymbolId},
      BoundAll scope arguments → (∀ p ∈ parameters, ∃ ty, table.type? p = some ty) →
      parameters.length = arguments.length →
      Safe (fun es => HaveTypes table es parameters ∧ BoundAll scope es)
        (checkArguments table arguments parameters)
  | [], [], _, _, _ => ⟨trivial, trivial⟩
  | argument :: arguments, parameter :: parameters, hb, hp, hlength => by
    rw [checkArguments]
    obtain ⟨ty, hty⟩ := hp parameter (by simp)
    refine Safe.lift (SymbolTable.typeOf_eq_ok.2 hty) ?_
    refine Safe.bind (safe_check ht (some ty) hb.1) fun r hr => ?_
    refine Safe.bind (safe_coerce hr.1 hr.2 ty) fun e he => ?_
    refine Safe.bind (safe_checkArguments ht hb.2 (fun p h => hp p (by simp [h]))
      (by simpa using hlength)) fun es hes => ?_
    exact ⟨⟨⟨ty, hty, he.1⟩, hes.1⟩, he.2, hes.2⟩

end

end Expr

namespace Expr

theorem safe_checkAt {table : SymbolTable} {scope : Scope} (ht : scope.TypedIn table) (target : Ty)
    {expr : Expr SymbolId Unit} (hb : expr.Bound scope) :
    Safe (fun e => e.HasType table target ∧ e.Bound scope) (expr.checkAt table target) :=
  Safe.bind (safe_check ht (some target) hb) fun _ h => safe_coerce h.typed h.bound target

theorem safe_checkEffect {table : SymbolTable} {scope : Scope} (ht : scope.TypedIn table)
    {expr : Expr SymbolId Unit} (hb : expr.Bound scope) :
    Safe (fun e => e.WellTyped table ∧ e.Bound scope) (expr.checkEffect table) := by
  cases expr with
  | call span u callee symbol arguments =>
    obtain ⟨parameters, returnType, hf, hparameters⟩ := ht.function hb.1
    rw [checkEffect]
    refine Safe.bind (safe_requireArity hf callee arguments.length span) ?_
    rintro ps ⟨rfl, hlength⟩
    refine Safe.bind (safe_checkArguments ht hb.2 hparameters hlength) ?_
    rintro es ⟨hes, hbs⟩
    refine Safe.lift (SymbolTable.returnTypeOf_of_function? hf) ?_
    cases returnType with
    | none => exact ⟨.inr ⟨span, callee, symbol, es, ps, rfl, hf, hes⟩, hb.1, hbs⟩
    | some ty => exact ⟨.inl ⟨ty, rfl, ps, hf, hes⟩, hb.1, hbs⟩
  | _ => exact Safe.bind (safe_check ht none hb) fun _ h => ⟨.inl ⟨_, h.typed⟩, h.bound⟩

end Expr

/-! ## Checking statements -/

namespace SymbolTable

def Untyped (table : SymbolTable) (first count : Nat) : Prop :=
  ∀ id, first ≤ id → id < first + count → ∃ name, table.get? id = some ⟨name, .var none .user⟩

/-- The variables of a range, and nothing else, have got types. -/
structure Learns (table table' : SymbolTable) (first count : Nat) : Prop where
  size : table'.size = table.size
  keep : ∀ {id}, id < first ∨ first + count ≤ id → table'.get? id = table.get? id
  typed : ∀ {id}, first ≤ id → id < first + count →
    ∃ name ty, table'.get? id = some ⟨name, .var (some ty) .user⟩

theorem Learns.refl (table : SymbolTable) (first : Nat) : table.Learns table first 0 :=
  ⟨rfl, fun _ => rfl, fun h h' => absurd h (Nat.not_le.2 h')⟩

variable {table' : SymbolTable} {first : Nat}

theorem Learns.trans {table table'' : SymbolTable} {m n : Nat} (h : table.Learns table' first m)
    (h' : table'.Learns table'' (first + m) n) :
    table.Learns table'' first (m + n) := by
  refine ⟨h'.size.trans h.size, ?_, ?_⟩
  · intro id hid
    rw [h'.keep (by omega), h.keep (by omega)]
  · intro id hid hlt
    by_cases hmid : id < first + m
    · rw [h'.keep (.inl hmid)]
      exact h.typed hid hmid
    · exact h'.typed (Nat.le_of_not_lt hmid) (by omega)

theorem Learns.untyped {table : SymbolTable} {m n : Nat} (h : table.Learns table' first m)
    (hu : table.Untyped first (m + n)) :
    table'.Untyped (first + m) n := by
  intro id hid hlt
  rw [h.keep (.inr hid)]
  exact hu id (by omega) (by omega)

theorem Learns.le {table : SymbolTable} {count : Nat} (h : table.Learns table' first count)
    (hu : table.Untyped first count) : table.Le table' := by
  have hsame : ∀ {id symbol}, table.get? id = some symbol →
      (∀ name, symbol ≠ ⟨name, .var none .user⟩) → table'.get? id = some symbol := by
    intro id symbol hget hne
    rw [h.keep, hget]
    by_cases hid : id < first
    · exact .inl hid
    · by_cases hlt : id < first + count
      · obtain ⟨name, hname⟩ := hu id (Nat.le_of_not_lt hid) hlt
        rw [hget, Option.some.injEq] at hname
        exact absurd hname (hne name)
      · exact .inr (Nat.le_of_not_lt hlt)
  refine ⟨fun ht => ?_, fun hf => ?_⟩
  · obtain ⟨name, origin, hget⟩ := type?_eq_some.1 ht
    exact type?_eq_some.2 ⟨name, origin, hsame hget (by simp)⟩
  · obtain ⟨name, hget⟩ := function?_eq_some.1 hf
    exact function?_eq_some.2 ⟨name, hsame hget (by simp)⟩

theorem exists_setType {table : SymbolTable} {next : Nat} (hu : table.Untyped next 1) (ty : Ty) :
    ∃ table', table.setType next ty = .ok table' ∧ table.Learns table' next 1 ∧
      table'.type? next = some ty := by
  obtain ⟨name, hget⟩ := hu next (Nat.le_refl _) (Nat.lt_succ_self _)
  refine ⟨table.setKind next (.var (some ty) .user), ?_, ⟨size_setKind .., ?_, ?_⟩, ?_⟩
  · rw [setType, get_eq_ok.2 hget]
    rfl
  · intro id hid
    have hne : id ≠ next := by
      rintro rfl
      omega
    rw [get?_setKind hget, if_neg hne]
  · intro id hid hlt
    obtain rfl : id = next := by omega
    exact ⟨name, ty, by rw [get?_setKind hget, if_pos rfl]⟩
  · exact type?_eq_some.2 ⟨name, .user, by rw [get?_setKind hget, if_pos rfl]⟩

end SymbolTable

structure Statement.Checked (scope : Scope) (next : Nat) (returnType : Option Ty)
    (table : SymbolTable) (statement : Statement SymbolId Unit)
    (result : Statement SymbolId (Option Ty) × SymbolTable) : Prop where
  learns : table.Learns result.2 next statement.declarations
  declarations : result.1.declarations = statement.declarations
  after : result.1.scopeAfter scope = statement.scopeAfter scope
  bound : result.1.Bound scope next
  typed : result.1.WellTyped result.2 returnType
  inScope : (statement.scopeAfter scope).TypedIn result.2

theorem Scope.TypedIn.declare (h : scope.TypedIn table) {name : String} {id : SymbolId} {ty : Ty}
    (hty : table.type? id = some ty) :
    (scope.declare name (.var id)).TypedIn table := by
  have hcases : ∀ {n r}, (scope.declare name (.var id)).find? n = some r →
      r = .var id ∨ scope.find? n = some r := by
    intro n r hfind
    simp only [Scope.declare, Scope.find?, List.lookup_cons] at hfind ⊢
    split at hfind
    · cases hfind
      exact .inl rfl
    · exact .inr hfind
  refine ⟨fun hfind => ?_, fun hfind => ?_⟩
  · rcases hcases hfind with heq | hfind
    · cases heq
      exact ⟨ty, hty⟩
    · exact h.var hfind
  · rcases hcases hfind with heq | hfind
    · cases heq
    · exact h.function hfind

theorem Local.safe_check {next : Nat} (ht : scope.TypedIn table) {decl : Local SymbolId Unit}
    (hb : (Statement.declare decl).Bound scope next) (hu : table.Untyped next 1) :
    Safe (fun r => (Statement.declare decl).Checked scope next returnType table (.declare r.1, r.2))
      (decl.check table) := by
  obtain ⟨span, name, annotation, initializer, symbol⟩ := decl
  obtain ⟨hinit, rfl⟩ := hb
  -- whatever the initializer is, the variable gets its type
  have hlast : ∀ {ty : Ty} {value : Option (Expr SymbolId (Option Ty))},
      (∀ e ∈ value, e.HasType table ty ∧ e.Bound scope) →
      Safe (fun r => (Statement.declare ⟨span, name, annotation, initializer, symbol⟩).Checked scope
        symbol returnType table (.declare r.1, r.2))
        (do
          let table ← table.setType symbol ty
          return (⟨span, name, annotation, value, symbol⟩, table) : Except Failure _) := by
    intro ty value hvalue
    obtain ⟨table', hset, hlearns, hty⟩ := SymbolTable.exists_setType hu ty
    have hle := hlearns.le hu
    refine Safe.lift hset ⟨hlearns, rfl, rfl, ⟨fun e he => (hvalue e he).2, rfl⟩,
      ⟨ty, hty, fun e he => (hvalue e he).1.mono hle⟩, (ht.mono hle).declare hty⟩
  unfold Local.check
  cases initializer with
  | none =>
    cases annotation with
    | none => exact trivial
    | some target => exact hlast (by simp)
  | some e =>
    cases annotation with
    | none =>
      refine Safe.bind (Expr.safe_check ht none (hinit e rfl)) fun r hr => ?_
      exact hlast (by simpa using ⟨hr.typed, hr.bound⟩)
    | some target =>
      refine Safe.bind (Expr.safe_checkAt ht target.ty (hinit e rfl)) fun r hr => ?_
      exact hlast (by simpa using hr)

structure Block.Checked (scope : Scope) (next : Nat) (returnType : Option Ty)
    (table : SymbolTable) (block : Block SymbolId Unit)
    (result : Block SymbolId (Option Ty) × SymbolTable) : Prop where
  learns : table.Learns result.2 next block.declarations
  declarations : result.1.declarations = block.declarations
  bound : result.1.Bound scope next
  typed : result.1.WellTyped result.2 returnType

theorem SymbolTable.Untyped.mono {first m n : Nat} (h : table.Untyped first n) (hmn : m ≤ n) :
    table.Untyped first m :=
  fun id hid hlt => h id hid (by omega)

theorem Statement.checked_of_same {next : Nat} (ht : scope.TypedIn table)
    {statement : Statement SymbolId Unit} {checked : Statement SymbolId (Option Ty)}
    (hdeclarations : statement.declarations = 0) (hsame : checked.declarations = 0)
    (hafter : statement.scopeAfter scope = scope) (hafter' : checked.scopeAfter scope = scope)
    (hbound : checked.Bound scope next) (htyped : checked.WellTyped table returnType) :
    statement.Checked scope next returnType table (checked, table) :=
  ⟨by rw [hdeclarations]; exact .refl table next, hsame.trans hdeclarations.symm,
    hafter'.trans hafter.symm, hbound, htyped, by rw [hafter]; exact ht⟩

mutual

theorem Statement.safe_check {scope : Scope} {table : SymbolTable} {next : Nat}
    {returnType : Option Ty} (ht : scope.TypedIn table) :
    ∀ {statement : Statement SymbolId Unit}, statement.Bound scope next →
      table.Untyped next statement.declarations →
      Safe (statement.Checked scope next returnType table) (statement.check returnType table)
  | .declare decl, hb, hu => by
    rw [Statement.check]
    exact Safe.bind (Local.safe_check ht hb hu) fun _ h => h
  | .assign span target symbol value, hb, _ => by
    obtain ⟨ty, hty⟩ := ht.var hb.2
    rw [Statement.check]
    refine Safe.lift (SymbolTable.typeOf_eq_ok.2 hty) ?_
    refine Safe.bind (Expr.safe_checkAt ht ty hb.1) fun e he => ?_
    exact Statement.checked_of_same ht rfl rfl rfl rfl ⟨he.2, hb.2⟩ ⟨ty, hty, he.1⟩
  | .ret span none, _, _ => by
    cases returnType with
    | none =>
      rw [Statement.check]
      exact Statement.checked_of_same ht rfl rfl rfl rfl (by simp [Statement.Bound]) rfl
    | some ty =>
      rw [Statement.check]
      exact trivial
  | .ret span (some value), hb, _ => by
    cases returnType with
    | none =>
      rw [Statement.check]
      exact trivial
    | some ty =>
      rw [Statement.check]
      refine Safe.bind (Expr.safe_checkAt ht ty (hb value rfl)) fun e he => ?_
      exact Statement.checked_of_same ht rfl rfl rfl rfl (by simpa [Statement.Bound] using he.2)
        ⟨ty, rfl, he.1⟩
  | .ifThen span condition positive, hb, hu => by
    rw [Statement.check]
    refine Safe.bind (Expr.safe_checkAt ht .bool hb.1) fun c hc => ?_
    refine Safe.bind (Block.safe_check ht hb.2 hu) fun r hr => ?_
    have hle := hr.learns.le hu
    exact ⟨hr.learns, hr.declarations, rfl, ⟨hc.2, hr.bound⟩, ⟨hc.1.mono hle, hr.typed⟩,
      ht.mono hle⟩
  | .ifElse span condition positive negative, hb, hu => by
    rw [Statement.check]
    refine Safe.bind (Expr.safe_checkAt ht .bool hb.1) fun c hc => ?_
    have hu₁ : table.Untyped next positive.declarations := hu.mono (Nat.le_add_right ..)
    refine Safe.bind (Block.safe_check ht hb.2.1 hu₁) fun r hr => ?_
    have hle := hr.learns.le hu₁
    have hu₂ := hr.learns.untyped hu
    refine Safe.bind (Block.safe_check (ht.mono hle) hb.2.2 hu₂) fun r' hr' => ?_
    have hle' := hr'.learns.le hu₂
    refine ⟨hr.learns.trans hr'.learns, ?_, rfl, ⟨hc.2, hr.bound, ?_⟩,
      ⟨hc.1.mono (hle.trans hle'), hr.typed.mono hle', hr'.typed⟩, ht.mono (hle.trans hle')⟩
    · rw [Statement.declarations, hr.declarations, hr'.declarations]
      rfl
    · rw [hr.declarations]
      exact hr'.bound
  | .expr span value, hb, _ => by
    rw [Statement.check]
    refine Safe.bind (Expr.safe_checkEffect ht hb) fun e he => ?_
    exact Statement.checked_of_same ht rfl rfl rfl rfl he.2 he.1

theorem Block.safe_check {scope : Scope} {table : SymbolTable} {next : Nat}
    {returnType : Option Ty} (ht : scope.TypedIn table) :
    ∀ {block : Block SymbolId Unit}, block.Bound scope next →
      table.Untyped next block.declarations →
      Safe (block.Checked scope next returnType table) (block.check returnType table)
  | .mk span statements, hb, hu => by
    rw [Block.check]
    refine Safe.bind (Statement.safe_checkAll ht hb hu) fun r hr => ?_
    exact ⟨hr.1, hr.2.1, hr.2.2.1, hr.2.2.2⟩

theorem Statement.safe_checkAll {scope : Scope} {table : SymbolTable} {next : Nat}
    {returnType : Option Ty} (ht : scope.TypedIn table) :
    ∀ {statements : List (Statement SymbolId Unit)}, Statement.BoundAll scope next statements →
      table.Untyped next (Statement.declarationsAll statements) →
      Safe (fun r => table.Learns r.2 next (Statement.declarationsAll statements) ∧
          Statement.declarationsAll r.1 = Statement.declarationsAll statements ∧
          Statement.BoundAll scope next r.1 ∧ Statement.AllWellTyped r.2 returnType r.1)
        (Statement.checkAll returnType table statements)
  | [], _, _ => ⟨.refl table next, rfl, trivial, trivial⟩
  | statement :: rest, hb, hu => by
    rw [Statement.checkAll]
    have hu₁ : table.Untyped next statement.declarations := hu.mono (Nat.le_add_right ..)
    refine Safe.bind (Statement.safe_check ht hb.1 hu₁) fun r hr => ?_
    have hu₂ := hr.learns.untyped hu
    refine Safe.bind (Statement.safe_checkAll hr.inScope hb.2 hu₂) fun r' hr' => ?_
    obtain ⟨hlearns, hdeclarations, hbound, htyped⟩ := hr'
    refine ⟨hr.learns.trans hlearns, ?_, ⟨hr.bound, ?_⟩, hr.typed.mono (hlearns.le hu₂), htyped⟩
    · rw [Statement.declarationsAll, hr.declarations, hdeclarations]
      rfl
    · rw [hr.after, hr.declarations]
      exact hbound

end

end Cinder
