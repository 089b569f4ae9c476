import Cinder.Proofs.Integers
import Cinder.Proofs.Program.Resolution
import Cinder.Proofs.Program.ScopeStack
import Cinder.Proofs.Typing.Soundness

/-!
# What checking says of any program

A program whose types are checked is rejected at a span of its tree, or its integers are in
the range of their types and the table has as many symbols as before.  This holds as well
where the symbols of a program cannot be told apart.
-/

namespace Cinder

variable {span : Span} {ty : Ty} {n : Int}

/-! ## Integers of a tree -/

structure Numeral (τ : Type) where
  /-- Whether it is the operand of a minus sign. -/
  negated : Bool
  ty : τ
  value : Nat
deriving DecidableEq, Repr

section

variable {σ τ : Type}

mutual

/-- The integers of an expression, which itself may be the operand of a minus sign. -/
def Expr.numerals (negated : Bool) : Expr σ τ → List (Numeral τ)
  | .literal _ ty (.integer value) => [⟨negated, ty, value⟩]
  | .literal .. => []
  | .ident .. => []
  | .call _ _ _ _ arguments => Expr.numeralsAll arguments
  | .binary _ _ _ _ lhs rhs => lhs.numerals false ++ rhs.numerals false
  | .negate _ _ operand => operand.numerals true
  | .cast _ _ operand _ => operand.numerals false

def Expr.numeralsAll : List (Expr σ τ) → List (Numeral τ)
  | [] => []
  | expr :: rest => expr.numerals false ++ Expr.numeralsAll rest

end

mutual

def Statement.Every (P : Expr σ τ → Prop) : Statement σ τ → Prop
  | .declare decl => ∀ e ∈ decl.initializer, P e
  | .assign _ _ _ value => P value
  | .ret _ value => ∀ e ∈ value, P e
  | .ifThen _ condition positive => P condition ∧ positive.Every P
  | .ifElse _ condition positive negative =>
    P condition ∧ positive.Every P ∧ negative.Every P
  | .expr _ value => P value

def Block.Every (P : Expr σ τ → Prop) : Block σ τ → Prop
  | .mk _ statements => Statement.EveryAll P statements

def Statement.EveryAll (P : Expr σ τ → Prop) : List (Statement σ τ) → Prop
  | [] => True
  | statement :: rest => statement.Every P ∧ Statement.EveryAll P rest

end

theorem Expr.forall_numeralsAll {P : Numeral τ → Prop} {es : List (Expr σ τ)} :
    (∀ x ∈ Expr.numeralsAll es, P x) ↔ ∀ e ∈ es, ∀ x ∈ e.numerals false, P x := by
  induction es with
  | nil => simp [Expr.numeralsAll]
  | cons e es ih => rw [Expr.numeralsAll, List.forall_mem_append, ih, List.forall_mem_cons]

end

namespace Numeral

/-- A type has the integer as it is written, or with its minus sign. -/
def Exact (x : Numeral (Option Ty)) (ty : Ty) : Prop :=
  ty.Admits x.value ∨ (x.negated = true ∧ ty.Admits (-x.value))

/-- With its minus sign the integer is below the least one of the widest type. -/
def Underflows (x : Numeral (Option Ty)) (ty : Ty) : Prop :=
  x.negated = true ∧ ty = Ty.s64 ∧ 2 ^ 63 < x.value

theorem not_underflows_of_exact {x : Numeral (Option Ty)} (h : x.Exact ty) :
    ¬x.Underflows ty := by
  rintro ⟨-, rfl, hlarge⟩
  rcases h with ⟨-, hhigh⟩ | ⟨-, hlow, -⟩
  · have hhigh : (x.value : Int) < 2 ^ 63 := hhigh
    omega
  · have hlow : -2 ^ 63 ≤ -(x.value : Int) := hlow
    omega

def Sound (x : Numeral (Option Ty)) : Prop :=
  ∀ width signed, x.ty = some (.int width signed) →
    x.Exact (.int width signed) ∨ x.Underflows (.int width signed)

theorem Sound.negate {ty : Option Ty} {value : Nat} (h : Sound ⟨false, ty, value⟩) :
    Sound ⟨true, ty, value⟩ := by
  intro width signed hty
  rcases h width signed hty with (hadmits | ⟨⟨⟩, -⟩) | ⟨⟨⟩, -⟩
  exact .inl (.inl hadmits)

end Numeral

/-! ## Literals -/

namespace Literal

/-- An integer with no type asked for gets one that has it, unless there is none. -/
theorem admits_defaultIntegerType (hlow : -2 ^ 63 ≤ n) (hhigh : n < 2 ^ 64) :
    (defaultIntegerType n).Admits n := by
  unfold defaultIntegerType
  cases h : [Ty.s32, Ty.s64, Ty.u64].find? (Ty.holds n) with
  | some ty =>
    have hholds := List.find?_some h
    have hmem := List.mem_of_find?_eq_some h
    simp only [List.mem_cons, List.not_mem_nil, or_false] at hmem
    rcases hmem with rfl | rfl | rfl <;> exact Ty.holds_int_iff.1 hholds
  | none =>
    have hnone := List.find?_eq_none.1 h
    -- together the two widest types leave no gap
    by_cases hhalf : n < 2 ^ 63
    · have hadmits : (Ty.int .w64 true).Admits n := ⟨hlow, hhalf⟩
      exact absurd (Ty.holds_int_iff.2 hadmits) (hnone Ty.s64 (by simp))
    · have hadmits : (Ty.int .w64 false).Admits n := ⟨by omega, hhigh⟩
      exact absurd (Ty.holds_int_iff.2 hadmits) (hnone Ty.u64 (by simp))

theorem defaultIntegerType_of_lt (h : n < -2 ^ 63) : defaultIntegerType n = Ty.s64 := by
  have hnone : [Ty.s32, Ty.s64, Ty.u64].find? (Ty.holds n) = none := by
    refine List.find?_eq_none.2 fun ty hmem hholds => ?_
    simp only [List.mem_cons, List.not_mem_nil, or_false] at hmem
    rcases hmem with rfl | rfl | rfl
    · obtain ⟨hlow, -⟩ : -2 ^ 31 ≤ n ∧ n < 2 ^ 31 := Ty.holds_int_iff.1 hholds
      omega
    · obtain ⟨hlow, -⟩ : -2 ^ 63 ≤ n ∧ n < 2 ^ 63 := Ty.holds_int_iff.1 hholds
      omega
    · obtain ⟨hlow, -⟩ : 0 ≤ n ∧ n < 2 ^ 64 := Ty.holds_int_iff.1 hholds
      omega
  rw [defaultIntegerType, hnone]
  rfl

theorem admits_of_integerType {expected : Option Ty} {width : Width} {signed : Bool}
    (hn : n < 2 ^ 64) (h : integerType n expected span = .ok (.int width signed)) :
    (Ty.int width signed).Admits n ∨ (Ty.int width signed = Ty.s64 ∧ n < -2 ^ 63) := by
  unfold integerType at h
  split at h
  · cases h
  · split at h
    · rename_i hholds
      cases h
      exact .inl (Ty.holds_int_iff.1 hholds)
    · cases h
  · have h := Except.ok.inj h
    by_cases hlow : n < -2 ^ 63
    · exact .inr ⟨h.symm.trans (defaultIntegerType_of_lt hlow), hlow⟩
    · rw [← h]
      exact .inl (admits_defaultIntegerType (not_lt.1 hlow) hn)

theorem sound_of_type {value : Nat} (hvalue : value < UInt64.size) {negated : Bool}
    {expected : Option Ty} (h : (Literal.integer value).type negated expected span = .ok ty) :
    Numeral.Sound ⟨negated, some ty, value⟩ := by
  rintro width signed ⟨⟩
  have hvalue : value < 2 ^ 64 := hvalue
  cases negated with
  | false =>
    have h : integerType (value : Int) expected span = .ok (.int width signed) := h
    rcases admits_of_integerType (Int.ofNat_lt.2 hvalue) h with hadmits | ⟨-, hlow⟩
    · exact .inl (.inl hadmits)
    · omega
  | true =>
    have h : integerType (-(value : Int)) expected span = .ok (.int width signed) := h
    rcases admits_of_integerType (by omega) h with hadmits | ⟨hty, hlow⟩
    · exact .inl (.inr ⟨rfl, hadmits⟩)
    · have hlarge : 2 ^ 63 < value := by omega
      exact .inr ⟨rfl, hty, hlarge⟩

end Literal

/-! ## Checking types -/

/-- A program that is wrong is wrong at a span with a property. -/
def Failure.Spanned (P : Span → Prop) : Failure → Prop
  | .rejected diagnostic => P diagnostic.span
  | .broken _ => True

variable {P : Span → Prop}

theorem delivers_lift_fault {α : Type} (x : Except Fault α) :
    Delivers (fun _ => True) (Failure.Spanned P) (liftM x : Except Failure α) := by
  cases x with
  | ok a => exact trivial
  | error fault => exact trivial

theorem delivers_lift_diagnostic {α : Type} {Q : α → Prop} {x : Except Diagnostic α}
    (h : Delivers Q (fun diagnostic => P diagnostic.span) x) :
    Delivers Q (Failure.Spanned P) (liftM x : Except Failure α) := by
  cases x with
  | ok a => exact h
  | error diagnostic => exact h

theorem lift_eq_ok {α : Type} {x : Except Fault α} {a : α} :
    (liftM x : Except Failure α) = .ok a ↔ x = .ok a := by
  cases x with
  | ok b =>
    change (Except.ok b : Except Failure α) = .ok a ↔ _
    rw [Except.ok.injEq, Except.ok.injEq]
  | error fault =>
    change (Except.error _ : Except Failure α) = .ok a ↔ _
    simp

theorem SymbolTable.size_setType {table table' : SymbolTable} {id : SymbolId}
    (h : table.setType id ty = .ok table') : table'.size = table.size := by
  obtain ⟨symbol, -, h⟩ := bind_eq_ok.1 h
  split at h
  · cases h
    exact size_setKind ..
  · cases h

theorem delivers_setType (table : SymbolTable) (id : SymbolId) (ty : Ty) :
    Delivers (fun table' => table'.size = table.size) (Failure.Spanned P)
      (liftM (table.setType id ty) : Except Failure SymbolTable) :=
  (delivers_lift_fault _).of_ok fun _ h => SymbolTable.size_setType (lift_eq_ok.1 h)

theorem delivers_requireConversion (source target : Ty) (h : P span) :
    Delivers (fun _ => True) (Failure.Spanned P) (requireConversion source target span) := by
  unfold requireConversion
  split
  · exact trivial
  · exact h

namespace Literal

theorem delivers_integerType (value : Int) (expected : Option Ty) (h : P span) :
    Delivers (fun _ => True) (Failure.Spanned P) (integerType value expected span) := by
  unfold integerType
  split
  · exact trivial
  · split
    · exact trivial
    · exact h
  · exact trivial

/-- A literal gets a type that has it, or it is rejected where it stands. -/
theorem delivers_type {literal : Literal} (hbounded : literal.Bounded) (negated : Bool)
    (expected : Option Ty) (h : P span) :
    Delivers (fun ty =>
      ∀ x ∈ (Expr.literal (σ := SymbolId) span (some ty) literal).numerals negated,
      x.Sound) (Failure.Spanned P) (literal.type negated expected span) := by
  have htype : Delivers (fun _ => True) (Failure.Spanned P)
      (literal.type negated expected span) := by
    unfold type
    split
    · exact trivial
    · split <;> exact trivial
    · exact delivers_integerType _ _ h
  refine htype.of_ok fun ty hty => ?_
  cases literal with
  | integer n => exact List.forall_mem_singleton.2 (sound_of_type hbounded hty)
  | float | boolean => exact List.forall_mem_nil _

end Literal

/-! ### Expressions -/

def Expr.Sound {σ : Type} (e : Expr σ (Option Ty)) : Prop :=
  ∀ x ∈ e.numerals false, x.Sound

namespace Expr

theorem Sound.negate {e : Expr SymbolId (Option Ty)} (h : e.Sound) {ty : Option Ty} :
    (Expr.negate span ty e).Sound := by
  cases e with
  | literal span ty value =>
    cases value with
    | integer value => exact List.forall_mem_singleton.2 (h _ List.mem_cons_self).negate
    | float | boolean => exact h
  | _ => exact h

theorem delivers_coerce {e : Expr SymbolId (Option Ty)} (h : P e.span ∧ e.Sound)
    (source target : Ty) : Delivers Expr.Sound (Failure.Spanned P) (e.coerce source target) := by
  unfold coerce
  split
  · exact h.2
  · apply Delivers.bind (delivers_requireConversion source target h.1)
    intro _ _
    exact h.2

theorem delivers_requireArity (table : SymbolTable) (callee : Ident) (symbol : SymbolId)
    (supplied : Nat) (h : P span) :
    Delivers (fun _ => True) (Failure.Spanned P)
      (requireArity table callee symbol supplied span) := by
  apply Delivers.bind (delivers_lift_fault _)
  intro parameters _
  split
  · exact trivial
  · exact h

/-- Two operands that have been checked are converted to their common type. -/
theorem delivers_combine {lhs rhs : Expr SymbolId (Option Ty) × Ty}
    (hlhs : P lhs.1.span ∧ lhs.1.Sound) (hrhs : P rhs.1.span ∧ rhs.1.Sound) {opSpan : Span}
    (hspan : P span) (hop : P opSpan) (op : Operator) :
    Delivers (fun result : Expr SymbolId (Option Ty) × Ty => P result.1.span ∧ result.1.Sound)
        (Failure.Spanned P) (do
      match lhs.2.unify rhs.2 with
      | none => reject (.operandMismatch lhs.2 rhs.2 op) opSpan
      | some ty =>
        if ty.isBoolean && !op.isComparison then reject (.booleanOperand op) opSpan
        let lhs' ← lhs.1.coerce lhs.2 ty
        let rhs' ← rhs.1.coerce rhs.2 ty
        let result := if op.isComparison then .bool else ty
        return (.binary span (some result) op opSpan lhs' rhs', result)) := by
  split
  · exact hop
  · dsimp only
    split
    · exact hop
    · apply Delivers.bind (delivers_coerce hlhs _ _)
      intro lhs' hlhs'
      apply Delivers.bind (delivers_coerce hrhs _ _)
      intro rhs' hrhs'
      exact ⟨hspan, List.forall_mem_append.2 ⟨hlhs', hrhs'⟩⟩

mutual

theorem delivers_check (table : SymbolTable) : ∀ {e : Expr SymbolId Unit} (expected : Option Ty),
    e.Sourced P → Delivers (fun result => P result.1.span ∧ result.1.Sound) (Failure.Spanned P)
      (e.check table expected)
  | .literal .., expected, h => by
    rw [check]
    apply Delivers.bind (Literal.delivers_type h.2 false expected h.1)
    intro ty hty
    exact ⟨h.1, hty⟩
  | .ident .., _, h => by
    rw [check]
    apply Delivers.bind (delivers_lift_fault _)
    intro ty _
    exact ⟨h.1, List.forall_mem_nil _⟩
  | .call .., _, h => by
    rw [check]
    apply Delivers.bind (delivers_requireArity table _ _ _ h.1)
    intro parameters _
    apply Delivers.bind (delivers_checkArguments table parameters h.2.2)
    intro arguments harguments
    apply Delivers.bind (delivers_lift_fault _)
    intro returnType _
    cases returnType with
    | none => exact h.1
    | some ty => exact ⟨h.1, forall_numeralsAll.2 harguments⟩
  | .binary .., _, h => by
    rw [check]
    -- the operand that is checked first tells the other one its type
    split
    · apply Delivers.bind (delivers_check table _ h.2.2.2)
      intro rhs hrhs
      apply Delivers.bind (delivers_check table _ h.2.2.1)
      intro lhs hlhs
      exact delivers_combine hlhs hrhs h.1 h.2.1 _
    · apply Delivers.bind (delivers_check table _ h.2.2.1)
      intro lhs hlhs
      apply Delivers.bind (delivers_check table _ h.2.2.2)
      intro rhs hrhs
      exact delivers_combine hlhs hrhs h.1 h.2.1 _
  | .negate span u operand, expected, h => by
    by_cases hliteral : ∃ inner u value, operand = .literal inner u value
    · obtain ⟨inner, u, value, rfl⟩ := hliteral
      rw [check]
      apply Delivers.bind (Literal.delivers_type h.2.2 true expected h.2.1)
      intro ty hty
      split
      · exact h.1
      · exact ⟨h.1, hty⟩
    · rw [check_negate fun inner u value heq => hliteral ⟨inner, u, value, heq⟩]
      apply Delivers.bind (delivers_check table expected h.2)
      intro result hresult
      dsimp only
      split
      · exact h.1
      · -- a dropped cast can leave an integer behind the sign, which is in range without it
        exact ⟨h.1, hresult.2.negate⟩
  | .cast _ _ _ target, _, h => by
    rw [check]
    apply Delivers.bind (delivers_check table none h.2.1)
    intro result hresult
    apply Delivers.bind (delivers_requireConversion result.2 target.ty h.1)
    intro _ _
    split
    · exact hresult
    · exact ⟨h.1, hresult.2⟩

theorem delivers_checkArguments (table : SymbolTable) :
    ∀ {arguments : List (Expr SymbolId Unit)} (parameters : List SymbolId), SourcedAll P arguments →
      Delivers (fun checked => ∀ e ∈ checked, e.Sound) (Failure.Spanned P)
        (checkArguments table arguments parameters)
  | [], _, _ => by
    rw [checkArguments.eq_def]
    exact List.forall_mem_nil _
  | _ :: _, [], _ => by
    rw [checkArguments.eq_def]
    exact List.forall_mem_nil _
  | _ :: _, _ :: parameters, h => by
    rw [checkArguments]
    apply Delivers.bind (delivers_lift_fault _)
    intro target _
    apply Delivers.bind (delivers_check table (some target) h.1)
    intro result hresult
    apply Delivers.bind (delivers_coerce hresult _ _)
    intro argument hargument
    apply Delivers.bind (delivers_checkArguments table parameters h.2)
    intro arguments harguments
    exact List.forall_mem_cons.2 ⟨hargument, harguments⟩

end

theorem delivers_checkEffect (table : SymbolTable) {e : Expr SymbolId Unit} (h : e.Sourced P) :
    Delivers Expr.Sound (Failure.Spanned P) (e.checkEffect table) := by
  cases e with
  | call span u callee symbol arguments =>
    rw [checkEffect]
    apply Delivers.bind (delivers_requireArity table _ _ _ h.1)
    intro parameters _
    apply Delivers.bind (delivers_checkArguments table parameters h.2.2)
    intro arguments harguments
    apply Delivers.bind (delivers_lift_fault _)
    intro returnType _
    exact forall_numeralsAll.2 harguments
  | _ =>
    apply Delivers.bind (delivers_check table none h)
    intro result hresult
    exact hresult.2

theorem delivers_checkAt (table : SymbolTable) (target : Ty) {e : Expr SymbolId Unit}
    (h : e.Sourced P) : Delivers Expr.Sound (Failure.Spanned P) (e.checkAt table target) := by
  apply Delivers.bind (delivers_check table (some target) h)
  intro result hresult
  exact delivers_coerce hresult _ _

end Expr

/-! ### Statements -/

theorem Local.delivers_check (table : SymbolTable) {decl : Local SymbolId Unit}
    (h : decl.Sourced P) : Delivers
      (fun result => (∀ e ∈ result.1.initializer, e.Sound) ∧ result.2.size = table.size)
      (Failure.Spanned P) (decl.check table) := by
  have hset : ∀ (ty : Ty) {initializer : Option (Expr SymbolId (Option Ty))},
      (∀ e ∈ initializer, e.Sound) → Delivers
        (fun result => (∀ e ∈ result.1.initializer, e.Sound) ∧ result.2.size = table.size)
        (Failure.Spanned P) (do
          let table ← table.setType decl.symbol ty
          return ((⟨decl.span, decl.name, decl.ty, initializer, decl.symbol⟩ :
            Local SymbolId (Option Ty)), table)) := by
    intro ty initializer hinitializer
    apply Delivers.bind (delivers_setType table decl.symbol ty)
    intro table hsize
    exact ⟨hinitializer, hsize⟩
  unfold Local.check
  dsimp only
  split
  · rename_i initializer target hinitializer _
    apply Delivers.bind (Expr.delivers_checkAt table _ (h.initializer initializer hinitializer))
    intro value hvalue
    exact hset _ (by simpa using hvalue)
  · rename_i initializer hinitializer _
    apply Delivers.bind (Expr.delivers_check table none (h.initializer initializer hinitializer))
    intro result hresult
    exact hset _ (by simpa using hresult.2)
  · exact hset _ (by simp)
  · exact h.span

mutual

theorem Statement.delivers_check (returnType : Option Ty) (table : SymbolTable) :
    ∀ {s : Statement SymbolId Unit}, s.Sourced P →
      Delivers (fun result => result.1.Every Expr.Sound ∧ result.2.size = table.size)
        (Failure.Spanned P) (s.check returnType table)
  | .declare decl, h => by
    rw [Statement.check]
    apply Delivers.bind (Local.delivers_check table (h : decl.Sourced P))
    intro result hresult
    exact hresult
  | .assign .., h => by
    rw [Statement.check]
    apply Delivers.bind (delivers_lift_fault _)
    intro ty _
    apply Delivers.bind (Expr.delivers_checkAt table ty h.2.2)
    intro value hvalue
    exact ⟨hvalue, rfl⟩
  | .ret _ value, h => by
    rw [Statement.check.eq_def]
    dsimp only
    split
    · apply Delivers.bind (Expr.delivers_checkAt table _ (h.2 _ rfl))
      intro value hvalue
      exact ⟨fun e he => Option.some.inj he ▸ hvalue, rfl⟩
    · exact (h.2 _ rfl).span
    · exact h.1
    · exact ⟨by rintro e ⟨⟩, rfl⟩
  | .ifThen .., h => by
    rw [Statement.check]
    apply Delivers.bind (Expr.delivers_checkAt table _ h.2.1)
    intro condition hcondition
    apply Delivers.bind (Block.delivers_check returnType table h.2.2)
    intro positive hpositive
    exact ⟨⟨hcondition, hpositive.1⟩, hpositive.2⟩
  | .ifElse .., h => by
    rw [Statement.check]
    apply Delivers.bind (Expr.delivers_checkAt table _ h.2.1)
    intro condition hcondition
    apply Delivers.bind (Block.delivers_check returnType table h.2.2.1)
    intro positive hpositive
    apply Delivers.bind (Block.delivers_check returnType positive.2 h.2.2.2)
    intro negative hnegative
    exact ⟨⟨hcondition, hpositive.1, hnegative.1⟩, hnegative.2.trans hpositive.2⟩
  | .expr .., h => by
    rw [Statement.check]
    apply Delivers.bind (Expr.delivers_checkEffect table h.2)
    intro value hvalue
    exact ⟨hvalue, rfl⟩

theorem Block.delivers_check (returnType : Option Ty) (table : SymbolTable) :
    ∀ {b : Block SymbolId Unit}, b.Sourced P →
      Delivers (fun result => result.1.Every Expr.Sound ∧ result.2.size = table.size)
        (Failure.Spanned P) (b.check returnType table)
  | .mk .., h => by
    rw [Block.check]
    apply Delivers.bind (Statement.delivers_checkAll returnType table h.2)
    intro result hresult
    exact hresult

theorem Statement.delivers_checkAll (returnType : Option Ty) (table : SymbolTable) :
    ∀ {ss : List (Statement SymbolId Unit)}, Statement.SourcedAll P ss →
      Delivers (fun result =>
          Statement.EveryAll Expr.Sound result.1 ∧ result.2.size = table.size)
        (Failure.Spanned P) (Statement.checkAll returnType table ss)
  | [], _ => ⟨trivial, rfl⟩
  | _ :: _, h => by
    rw [Statement.checkAll]
    apply Delivers.bind (Statement.delivers_check returnType table h.1)
    intro first hfirst
    apply Delivers.bind (Statement.delivers_checkAll returnType first.2 h.2)
    intro rest hrest
    exact ⟨⟨hfirst.1, hrest.1⟩, hrest.2.trans hfirst.2⟩

end

namespace Definition

theorem delivers_declareTypes (table : SymbolTable) (function : Definition SymbolId Unit) :
    Delivers (fun table' => table'.size = table.size) (Failure.Spanned P)
      (function.declareTypes table) := by
  apply Delivers.bind (Delivers.foldlM (Q := fun table' => table'.size = table.size)
    (fun table' p hsize => ?_) function.parameters rfl)
  · intro table₁ hsize
    apply Delivers.bind (delivers_lift_fault _)
    intro symbol _
    split
    · exact (SymbolTable.size_setKind ..).trans hsize
    · exact hsize
  · refine (delivers_setType table' p.symbol p.ty.ty).mono fun table₁ h => ?_
    exact h.trans hsize

theorem delivers_check (table : SymbolTable) {function : Definition SymbolId Unit}
    (h : function.Sourced P) :
    Delivers (fun result => (P result.1.name.span ∧ result.1.body.Every Expr.Sound) ∧
        result.2.size = table.size)
      (Failure.Spanned P) (function.check table) := by
  apply Delivers.bind (Block.delivers_check _ table h.body)
  intro body hbody
  dsimp only
  split
  · split
    · exact h.name
    · exact ⟨⟨h.name, hbody.1⟩, hbody.2⟩
  · exact ⟨⟨h.name, hbody.1⟩, hbody.2⟩

theorem delivers_checkAll {functions : List (Definition SymbolId Unit)}
    (h : ∀ function ∈ functions, function.Sourced P) (table : SymbolTable) :
    Delivers (fun result => (∀ function ∈ result.1,
        P function.name.span ∧ function.body.Every Expr.Sound) ∧ result.2.size = table.size)
      (Failure.Spanned P) (checkAll table functions) := by
  induction functions generalizing table with
  | nil => simp [checkAll, Delivers]
  | cons function functions ih =>
    rw [List.forall_mem_cons] at h
    apply Delivers.bind (delivers_check table h.1)
    intro first hfirst
    apply Delivers.bind (ih h.2 first.2)
    intro rest hrest
    exact ⟨List.forall_mem_cons.2 ⟨hfirst.1, hrest.1⟩, hrest.2.trans hfirst.2⟩

end Definition

namespace Program

/-- Checking types complains about the spans of a program, keeps its names in place and adds
no symbols. -/
theorem delivers_check {program : Program.Scoped} (table : SymbolTable)
    (h : ∀ function ∈ program.functions, function.Sourced P) :
    Delivers (fun result => (∀ function ∈ result.1.functions,
        P function.name.span ∧ function.body.Every Expr.Sound) ∧ result.2.size = table.size)
      (Failure.Spanned P) (program.check table) := by
  apply Delivers.bind (Delivers.foldlM (Q := fun table' => table'.size = table.size)
    (fun table' function hsize => ?_) program.functions rfl)
  · intro table₁ hsize
    apply Delivers.bind (Definition.delivers_checkAll h table₁)
    intro result hresult
    exact ⟨hresult.1, hresult.2.trans hsize⟩
  · refine (Definition.delivers_declareTypes table' function).mono fun table₁ h => ?_
    exact h.trans hsize

theorem delivers_ofSource (text : String) :
    Delivers (fun result => ∀ function ∈ result.1.functions,
        function.name.span.Within text.toList ∧ function.body.Every Expr.Sound)
      (Failure.Spanned fun span => span.Within text.toList) (ofSource text) := by
  apply Delivers.bind (delivers_lift_diagnostic (delivers_parse text))
  intro parsed hparsed
  rw [bindNames_eq]
  apply Delivers.bind (delivers_lift_diagnostic (delivers_resolve hparsed))
  intro resolved hresolved
  exact (delivers_check resolved.2 hresolved).mono fun _ h => h.1

end Program

end Cinder
