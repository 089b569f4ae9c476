import Cinder.Flow.Lower
import Cinder.Typing.Check

/-!
# What programs mean

Evaluates typed programs.  Variables are looked up by name, innermost declaration
first.  There is no value if a variable is read that has none yet, or if an
operation has no value; what calls give is a parameter of evaluating the body of
a function, and a program closes that loop by counting how deep calls are nested.
-/

namespace Cinder

/-- The variables in sight, innermost declaration first, with their values. -/
abbrev Locals := List (String × Option Constant)

namespace Locals

def read (locals : Locals) (name : String) : Option Constant :=
  (locals.lookup name).join

def write (name : String) (value : Constant) : Locals → Locals
  | [] => []
  | (name', old) :: rest =>
    if name == name' then (name', some value) :: rest else (name', old) :: write name value rest

def leave (count : Nat) (locals : Locals) : Locals :=
  locals.drop (locals.length - count)

end Locals

abbrev Results := String → List Constant → Option (Option Constant)

inductive Outcome where
  /-- The next statement runs with these variables. -/
  | next (locals : Locals)
  | returned (value : Option Constant)

variable {σ : Type}

mutual

/-- The value of an expression; operands and arguments come from left to right. -/
def Expr.eval (call : Results) (locals : Locals) : Expr σ (Option Ty) → Option Constant
  | .literal _ ty value => do (value.lower (← ty)).toOption
  | .ident _ _ name _ => locals.read name.name
  | .call _ _ callee _ arguments => do
    let values ← Expr.evalAll call locals arguments
    let result ← call callee.name values
    result
  | .binary _ _ op _ lhs rhs => do
    let a ← lhs.eval call locals
    let b ← rhs.eval call locals
    Constant.binary op a b
  | .negate _ ty operand => do
    let zero ← (Constant.zero (← ty)).toOption
    Constant.binary .sub zero (← operand.eval call locals)
  | .cast _ _ operand target => return (← operand.eval call locals).cast target.ty

def Expr.evalAll (call : Results) (locals : Locals) :
    List (Expr σ (Option Ty)) → Option (List Constant)
  | [] => some []
  | expr :: rest => do
    let value ← expr.eval call locals
    return value :: (← Expr.evalAll call locals rest)

end

/-- Whether an expression whose value is not used can be evaluated.  A call may
return nothing. -/
def Expr.evalEffect (call : Results) (locals : Locals) (expr : Expr σ (Option Ty)) :
    Option Unit :=
  match expr with
  | .call _ _ callee _ arguments => do
    let values ← Expr.evalAll call locals arguments
    let _ ← call callee.name values
  | expr => do
    let _ ← expr.eval call locals

mutual

def Statement.exec (call : Results) (locals : Locals) : Statement σ (Option Ty) → Option Outcome
  | .declare decl =>
    match decl.initializer with
    | none => some (.next ((decl.name.name, none) :: locals))
    | some initializer => do
      let value ← initializer.eval call locals
      return .next ((decl.name.name, some value) :: locals)
  | .assign _ target _ value => do
    return .next (locals.write target.name (← value.eval call locals))
  | .ret _ none => some (.returned none)
  | .ret _ (some value) => do return .returned (some (← value.eval call locals))
  | .ifThen _ condition positive => do
    if (← condition.eval call locals).isZero then return .next locals
    else positive.exec call locals
  | .ifElse _ condition positive negative => do
    if (← condition.eval call locals).isZero then negative.exec call locals
    else positive.exec call locals
  | .expr _ value => do
    value.evalEffect call locals
    return .next locals

def Block.exec (call : Results) (locals : Locals) : Block σ (Option Ty) → Option Outcome
  | .mk _ statements => do
    match ← Statement.execAll call locals statements with
    | .next inner => return .next (inner.leave locals.length)
    | .returned value => return .returned value

def Statement.execAll (call : Results) (locals : Locals) :
    List (Statement σ (Option Ty)) → Option Outcome
  | [] => some (.next locals)
  | statement :: rest => do
    match ← statement.exec call locals with
    | .next locals => Statement.execAll call locals rest
    | .returned value => return .returned value

end

theorem Statement.exec_ifThen (call : Results) (locals : Locals) (span : Span)
    (condition : Expr σ (Option Ty)) (positive : Block σ (Option Ty)) :
    (Statement.ifThen span condition positive).exec call locals =
      (Statement.ifElse span condition positive (.mk span [])).exec call locals := by
  have hnil : (Block.mk span ([] : List (Statement σ (Option Ty)))).exec call locals =
      some (.next locals) := by
    simp [Block.exec, Statement.execAll, Locals.leave]
  rw [Statement.exec, Statement.exec, hnil]
  rfl

/-! ## Returning on every path -/

section

variable {call : Results}

theorem Statement.returned_of_ret {span : Span} {value : Option (Expr σ (Option Ty))}
    {locals : Locals} {outcome : Outcome}
    (h : (Statement.ret span value).exec call locals = some outcome) :
    ∃ result, outcome = .returned result := by
  cases value with
  | none =>
    cases h
    exact ⟨_, rfl⟩
  | some value =>
    obtain ⟨c, -, h⟩ := Option.bind_eq_some_iff.1 h
    cases h
    exact ⟨_, rfl⟩

mutual

/-- A statement that returns on every path does not go on to the next one. -/
theorem Statement.returned_of_exec : ∀ {statement : Statement σ (Option Ty)} {locals : Locals}
    {outcome : Outcome}, statement.returns = true → statement.exec call locals = some outcome →
      ∃ result, outcome = .returned result
  | .ret .., _, _, _, h => Statement.returned_of_ret h
  | .ifElse _ _ positive negative, locals, outcome, hreturns, h => by
    rw [Statement.returns, Bool.and_eq_true] at hreturns
    rw [Statement.exec] at h
    obtain ⟨c, -, h⟩ := Option.bind_eq_some_iff.1 h
    split at h
    · exact Block.returned_of_exec hreturns.2 h
    · exact Block.returned_of_exec hreturns.1 h

theorem Block.returned_of_exec : ∀ {block : Block σ (Option Ty)} {locals : Locals}
    {outcome : Outcome}, block.returns = true → block.exec call locals = some outcome →
      ∃ result, outcome = .returned result
  | .mk _ statements, locals, outcome, hreturns, h => by
    rw [Block.exec] at h
    obtain ⟨inner, hinner, h⟩ := Option.bind_eq_some_iff.1 h
    obtain ⟨result, rfl⟩ := Statement.returned_of_execAll hreturns hinner
    cases h
    exact ⟨result, rfl⟩

theorem Statement.returned_of_execAll : ∀ {statements : List (Statement σ (Option Ty))}
    {locals : Locals} {outcome : Outcome}, Statement.anyReturns statements = true →
      Statement.execAll call locals statements = some outcome →
        ∃ result, outcome = .returned result
  | statement :: rest, locals, outcome, hreturns, h => by
    rw [Statement.anyReturns, Bool.or_eq_true] at hreturns
    rw [Statement.execAll] at h
    obtain ⟨first, hfirst, h⟩ := Option.bind_eq_some_iff.1 h
    cases first with
    | next locals =>
      rcases hreturns with hreturns | hreturns
      · obtain ⟨result, hresult⟩ := Statement.returned_of_exec hreturns hfirst
        cases hresult
      · exact Statement.returned_of_execAll hreturns h
    | returned result =>
      cases h
      exact ⟨result, rfl⟩

end

end

/-! ## Functions -/

def Locals.ofArguments (locals : Locals) : List (Parameter σ) → List Constant → Option Locals
  | [], [] => some locals
  | p :: parameters, value :: values =>
    ofArguments ((p.name.name, some value) :: locals) parameters values
  | _, _ => none

def Definition.call (results : Results) (definition : Definition σ (Option Ty))
    (arguments : List Constant) : Option (Option Constant) := do
  let locals ← Locals.ofArguments [] definition.parameters arguments
  match ← definition.body.exec results locals with
  | .next _ => return none
  | .returned value => return value

/-- What a call of a function of a program returns, if calls are nested at most so
deep. -/
def Program.call (program : Program σ (Option Ty)) : Nat → Results
  | 0, _, _ => none
  | depth + 1, name, arguments => do
    let definition ← program.functions.find? (·.name.name == name)
    definition.call (program.call depth) arguments

end Cinder
