import Cinder.Proofs.Typing.Program

/-!
# Types node by node

In an accepted program every node of the tree satisfies a rule that only looks at
the node, at the types its children carry and at the table of symbols.
-/

namespace Cinder

variable {returnType : Option Ty}

/-! ## Nodes -/

section

variable {σ τ : Type}

mutual

def Expr.nodes : Expr σ τ → List (Expr σ τ)
  | .literal span ty value => [.literal span ty value]
  | .ident span ty name symbol => [.ident span ty name symbol]
  | .call span ty callee symbol arguments =>
    .call span ty callee symbol arguments :: Expr.nodesAll arguments
  | .binary span ty op opSpan lhs rhs =>
    .binary span ty op opSpan lhs rhs :: (lhs.nodes ++ rhs.nodes)
  | .negate span ty operand => .negate span ty operand :: operand.nodes
  | .cast span ty operand target => .cast span ty operand target :: operand.nodes

def Expr.nodesAll : List (Expr σ τ) → List (Expr σ τ)
  | [] => []
  | expr :: rest => expr.nodes ++ Expr.nodesAll rest

end

mutual

def Statement.nodes : Statement σ τ → List (Statement σ τ)
  | .declare decl => [.declare decl]
  | .assign span target symbol value => [.assign span target symbol value]
  | .ret span value => [.ret span value]
  | .ifThen span condition positive => .ifThen span condition positive :: positive.nodes
  | .ifElse span condition positive negative =>
    .ifElse span condition positive negative :: (positive.nodes ++ negative.nodes)
  | .expr span value => [.expr span value]

def Block.nodes : Block σ τ → List (Statement σ τ)
  | .mk _ statements => Statement.nodesAll statements

def Statement.nodesAll : List (Statement σ τ) → List (Statement σ τ)
  | [] => []
  | statement :: rest => statement.nodes ++ Statement.nodesAll rest

end

def Statement.expressions : Statement σ τ → List (Expr σ τ)
  | .declare decl => decl.initializer.toList
  | .assign _ _ _ value => [value]
  | .ret _ value => value.toList
  | .ifThen _ condition _ => [condition]
  | .ifElse _ condition _ _ => [condition]
  | .expr _ value => [value]

end

/-! ## Rules -/

/-- What the types of an expression and of its children have to do with each other.
Only a call can be without a type. -/
def Expr.Conforms (table : SymbolTable) : Expr SymbolId (Option Ty) → Prop
  | .literal _ annotation value => ∃ ty, annotation = some ty ∧ value.Fits ty
  | .ident _ annotation _ symbol => ∃ ty, annotation = some ty ∧ table.type? symbol = some ty
  | .call _ annotation _ symbol arguments =>
    ∃ parameters, table.function? symbol = some (parameters, annotation) ∧
      List.Forall₂ (fun argument parameter =>
        ∃ ty, Expr.ty argument = some ty ∧ table.type? parameter = some ty) arguments parameters
  | .binary _ annotation op _ lhs rhs =>
    ∃ ty, lhs.ty = some ty ∧ rhs.ty = some ty ∧
      if op.isComparison then annotation = some .bool else annotation = some ty ∧ ty ≠ .bool
  | .negate _ annotation operand => ∃ ty, annotation = some ty ∧ operand.ty = some ty ∧ ty ≠ .bool
  | .cast _ annotation operand target =>
    annotation = some target.ty ∧ ∃ source, operand.ty = some source ∧ source ≠ target.ty ∧
      ¬(source = .u64 ∧ target.ty.isFloating) ∧ ¬(source.isFloating ∧ target.ty = .u64)

/-- What the types in a statement have to do with its variable, with the type that
the function returns, or with the condition it decides on. -/
def Statement.Conforms (table : SymbolTable) (returnType : Option Ty) :
    Statement SymbolId (Option Ty) → Prop
  | .declare decl =>
    ∃ ty, table.type? decl.symbol = some ty ∧ ∀ e ∈ decl.initializer, e.ty = some ty
  | .assign _ _ symbol value => ∃ ty, table.type? symbol = some ty ∧ value.ty = some ty
  | .ret _ none => returnType = none
  | .ret _ (some value) => ∃ ty, returnType = some ty ∧ value.ty = some ty
  | .ifThen _ condition _ => condition.ty = some .bool
  | .ifElse _ condition _ _ => condition.ty = some .bool
  | .expr _ _ => True

def Statement.IsVoidCall (table : SymbolTable) (call : Expr SymbolId (Option Ty)) :
    Statement SymbolId (Option Ty) → Prop
  | .expr _ value => value = call ∧ ∃ span callee symbol arguments parameters,
      call = .call span none callee symbol arguments ∧
        table.function? symbol = some (parameters, none)
  | _ => False

/-! ## Well-typed trees follow the rules -/

variable {table : SymbolTable}

theorem Ty.converts_eq_true {source target : Ty} :
    source.converts target = true ↔
      ¬(source = .u64 ∧ target.isFloating) ∧ ¬(source.isFloating ∧ target = .u64) := by
  rw [not_and_or, not_and_or]
  simp [Ty.converts]

mutual

/-- Every node of an expression that has a type follows its rule and has a type. -/
theorem Expr.HasType.nodes : ∀ {expr : Expr SymbolId (Option Ty)} {ty : Ty},
    expr.HasType table ty → ∀ n ∈ expr.nodes, n.Conforms table ∧ n.ty ≠ none
  | .literal _ _ _, ty, ⟨hty, hfits⟩, n, hn => by
    obtain rfl := List.mem_singleton.1 hn
    exact ⟨⟨ty, hty, hfits⟩, by simp [Expr.ty, hty]⟩
  | .ident _ _ _ _, ty, ⟨hty, htype⟩, n, hn => by
    obtain rfl := List.mem_singleton.1 hn
    exact ⟨⟨ty, hty, htype⟩, by simp [Expr.ty, hty]⟩
  | .call _ _ _ _ _, ty, ⟨hty, parameters, hf, harguments⟩, n, hn => by
    rcases List.mem_cons.1 hn with rfl | hn
    · subst hty
      exact ⟨⟨parameters, hf, harguments.tys⟩, by simp [Expr.ty]⟩
    · exact harguments.nodes n hn
  | .binary _ _ op _ _ _, ty, ⟨hty, operandTy, hlhs, hrhs, hop⟩, n, hn => by
    rcases List.mem_cons.1 hn with rfl | hn
    · refine ⟨⟨operandTy, hlhs.ty_eq, hrhs.ty_eq, ?_⟩, by simp [Expr.ty, hty]⟩
      subst hty
      cases hc : op.isComparison with
      | true => simpa [hc] using hop
      | false => simpa [hc] using hop
    · rcases List.mem_append.1 hn with hn | hn
      · exact hlhs.nodes n hn
      · exact hrhs.nodes n hn
  | .negate _ _ _, ty, ⟨hty, hoperand, hne⟩, n, hn => by
    rcases List.mem_cons.1 hn with rfl | hn
    · exact ⟨⟨ty, hty, hoperand.ty_eq, hne⟩, by simp [Expr.ty, hty]⟩
    · exact hoperand.nodes n hn
  | .cast _ _ _ _, ty, ⟨hty, htarget, source, hoperand, hne, hconverts⟩, n, hn => by
    rcases List.mem_cons.1 hn with rfl | hn
    · subst htarget
      exact ⟨⟨hty, source, hoperand.ty_eq, hne, Ty.converts_eq_true.1 hconverts⟩,
        by simp [Expr.ty, hty]⟩
    · exact hoperand.nodes n hn

theorem Expr.HaveTypes.nodes : ∀ {exprs : List (Expr SymbolId (Option Ty))}
    {parameters : List SymbolId}, Expr.HaveTypes table exprs parameters →
      ∀ n ∈ Expr.nodesAll exprs, n.Conforms table ∧ n.ty ≠ none
  | [], [], _, n, hn => absurd hn List.not_mem_nil
  | _ :: _, _ :: _, ⟨⟨_, _, h⟩, hrest⟩, n, hn => by
    rcases List.mem_append.1 hn with hn | hn
    · exact h.nodes n hn
    · exact hrest.nodes n hn

theorem Expr.HaveTypes.tys : ∀ {exprs : List (Expr SymbolId (Option Ty))}
    {parameters : List SymbolId}, Expr.HaveTypes table exprs parameters →
      List.Forall₂ (fun argument parameter =>
        ∃ ty, Expr.ty argument = some ty ∧ table.type? parameter = some ty) exprs parameters
  | [], [], _ => .nil
  | _ :: _, _ :: _, ⟨⟨ty, hty, h⟩, hrest⟩ => .cons ⟨ty, h.ty_eq, hty⟩ hrest.tys

end

/-- Every node of an expression that stands in a well-typed statement follows its
rule, and has a type unless it is all of the statement. -/
theorem Statement.WellTyped.expressions {s : Statement SymbolId (Option Ty)}
    (h : s.WellTyped table returnType) :
    ∀ e ∈ s.expressions, ∀ n ∈ e.nodes,
      n.Conforms table ∧ (n.ty = none → s.IsVoidCall table n) := by
  -- everywhere but in a call for its effect the whole expression has a type
  have htyped : ∀ {e : Expr SymbolId (Option Ty)} {ty : Ty}, e.HasType table ty → ∀ n ∈ e.nodes,
      n.Conforms table ∧ (n.ty = none → s.IsVoidCall table n) := by
    intro e ty he n hn
    obtain ⟨hn, hne⟩ := he.nodes n hn
    exact ⟨hn, fun h => absurd h hne⟩
  intro e he
  cases s with
  | declare decl =>
    obtain ⟨ty, -, hinit⟩ := h
    exact htyped (hinit e (Option.mem_toList.1 he))
  | assign span target symbol value =>
    obtain ⟨ty, -, hvalue⟩ := h
    obtain rfl := List.mem_singleton.1 he
    exact htyped hvalue
  | ret span value =>
    obtain rfl := Option.mem_toList.1 he
    obtain ⟨ty, -, hvalue⟩ := h
    exact htyped hvalue
  | ifThen span condition positive =>
    obtain rfl := List.mem_singleton.1 he
    exact htyped h.1
  | ifElse span condition positive negative =>
    obtain rfl := List.mem_singleton.1 he
    exact htyped h.1
  | expr span value =>
    obtain rfl := List.mem_singleton.1 he
    rcases h with ⟨ty, h⟩ | ⟨_, callee, symbol, arguments, parameters, rfl, hf, harguments⟩
    · exact htyped h
    · intro n hn
      rcases List.mem_cons.1 hn with rfl | hn
      · exact ⟨⟨parameters, hf, harguments.tys⟩,
          fun _ => ⟨rfl, _, callee, symbol, arguments, parameters, rfl, hf⟩⟩
      · obtain ⟨hn, hne⟩ := harguments.nodes n hn
        exact ⟨hn, fun h => absurd h hne⟩

theorem Statement.WellTyped.conforms {s : Statement SymbolId (Option Ty)}
    (h : s.WellTyped table returnType) :
    s.Conforms table returnType := by
  cases s with
  | declare decl =>
    obtain ⟨ty, hty, hinit⟩ := h
    exact ⟨ty, hty, fun e he => (hinit e he).ty_eq⟩
  | assign span target symbol value =>
    obtain ⟨ty, hty, hvalue⟩ := h
    exact ⟨ty, hty, hvalue.ty_eq⟩
  | ret span value =>
    cases value with
    | none => exact h
    | some value =>
      obtain ⟨ty, hty, hvalue⟩ := h
      exact ⟨ty, hty, hvalue.ty_eq⟩
  | ifThen span condition positive => exact h.1.ty_eq
  | ifElse span condition positive negative => exact h.1.ty_eq
  | expr span value => trivial

mutual

theorem Statement.WellTyped.nodes :
    ∀ {s : Statement SymbolId (Option Ty)}, s.WellTyped table returnType →
      ∀ n ∈ s.nodes, n.WellTyped table returnType
  | .declare _, h, n, hn => by
    obtain rfl := List.mem_singleton.1 hn
    exact h
  | .assign .., h, n, hn => by
    obtain rfl := List.mem_singleton.1 hn
    exact h
  | .ret .., h, n, hn => by
    obtain rfl := List.mem_singleton.1 hn
    exact h
  | .ifThen .., h, n, hn => by
    rcases List.mem_cons.1 hn with rfl | hn
    · exact h
    · exact h.2.nodes n hn
  | .ifElse .., h, n, hn => by
    rcases List.mem_cons.1 hn with rfl | hn
    · exact h
    · rcases List.mem_append.1 hn with hn | hn
      · exact h.2.1.nodes n hn
      · exact h.2.2.nodes n hn
  | .expr .., h, n, hn => by
    obtain rfl := List.mem_singleton.1 hn
    exact h

theorem Block.WellTyped.nodes :
    ∀ {block : Block SymbolId (Option Ty)}, block.WellTyped table returnType →
      ∀ n ∈ block.nodes, n.WellTyped table returnType
  | .mk .., h, n, hn => Statement.AllWellTyped.nodes h n hn

theorem Statement.AllWellTyped.nodes :
    ∀ {statements : List (Statement SymbolId (Option Ty))},
      Statement.AllWellTyped table returnType statements →
        ∀ n ∈ Statement.nodesAll statements, n.WellTyped table returnType
  | [], _, n, hn => absurd hn List.not_mem_nil
  | _ :: _, ⟨h, hrest⟩, n, hn => by
    rcases List.mem_append.1 hn with hn | hn
    · exact h.nodes n hn
    · exact hrest.nodes n hn

end

/-- In an accepted program every statement and every expression follows its rule.
The table knows the functions as the text declares them, only a call for its effect
is without a type, and a function that returns a value does so on every path. -/
theorem Program.conforms_of_ofSource {text : String} {program : Program.Typed}
    {table : SymbolTable} (h : Program.ofSource text = .ok (program, table))
    (hfit : table.size ≤ UInt32.size) :
    ∀ d ∈ program.functions, d.TypedIn table ∧
      (d.returnType.isSome = true → d.body.returns = true) ∧
      ∀ s ∈ d.body.nodes, s.Conforms table (d.returnType.map (·.ty)) ∧
        ∀ e ∈ s.expressions, ∀ n ∈ e.nodes,
          n.Conforms table ∧ (n.ty = none → s.IsVoidCall table n) := by
  obtain ⟨-, htyped⟩ := Program.wellTyped_of_ofSource h hfit
  intro d hd
  refine ⟨htyped.headings d hd, htyped.returns d hd, fun s hs => ?_⟩
  have hs : s.WellTyped table (d.returnType.map (·.ty)) := (htyped.bodies d hd).nodes s hs
  exact ⟨hs.conforms, hs.expressions⟩

def logging : String :=
  "fun log(x @s64):\n    return\n\nfun main() @s32:\n    var a @u8 = 3\n    log(a)\n    return -a\n"

/-- The one expression without a type is the call of `log`, whose argument has been
cast. -/
theorem Program.conforms_of_ofSource_log :
    ∃ program table d s e, Program.ofSource logging = .ok (program, table) ∧
      table.size ≤ UInt32.size ∧ d ∈ program.functions ∧ s ∈ d.body.nodes ∧ e ∈ s.expressions ∧
      e.ty = none ∧ e.Conforms table ∧ s.IsVoidCall table e := by
  have hrun : ((Program.ofSource logging).toOption.map fun r =>
      (r.2.size, r.1.functions.any fun d => d.body.nodes.any fun s => s.expressions.any fun e =>
        e.ty = none)) = some (4, true) := by
    rw [Program.ofSource, Program.parse, logging, tokenize_ofList]
    decide +kernel
  obtain ⟨⟨program, table⟩, hsource, hrun⟩ := Option.map_eq_some_iff.1 hrun
  obtain ⟨hsize, hany⟩ := Prod.mk.inj hrun
  rw [toOption_eq_some] at hsource
  have hfit : table.size ≤ UInt32.size := hsize ▸ by decide
  simp only [List.any_eq_true, decide_eq_true_eq] at hany
  obtain ⟨d, hd, s, hs, e, he, hty⟩ := hany
  have hself : e ∈ e.nodes := by
    cases e <;> simp [Expr.nodes]
  obtain ⟨hconforms, hvoid⟩ :=
    ((Program.conforms_of_ofSource hsource hfit d hd).2.2 s hs).2 e he e hself
  exact ⟨program, table, d, s, e, hsource, hfit, hd, hs, he, hty, hconforms, hvoid hty⟩

end Cinder
