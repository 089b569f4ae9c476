import Cinder.Proofs.Program.Scoping
import Cinder.Proofs.Program.Spans

/-!
# Binding names by the rules

Binding the names of a tree gives that tree, with symbols that its names stand for.  Where it
fails, the complaint stands at a span of the tree, and some name of the tree does not denote what
it is used as.
-/

namespace Cinder

/-! ## Names without symbols -/

section

variable {σ τ : Type} {env : Environment σ}

def Referent.erase : Referent σ → Referent Unit
  | .function _ => .function ()
  | .var _ => .var ()

def Environment.erase (env : Environment σ) : Environment Unit :=
  fun name => (env name).map Referent.erase

theorem Environment.erase_declare (env : Environment σ) (name : String) (d : Referent σ) :
    (env.declare name d).erase = env.erase.declare name d.erase := by
  funext n
  simp only [erase, declare]
  split <;> rfl

theorem Environment.erase_declareParameters (env : Environment σ)
    (parameters : List (Parameter σ)) : (env.declareParameters parameters).erase =
      env.erase.declareParameters (parameters.map Parameter.erase) := by
  induction parameters generalizing env with
  | nil => rfl
  | cons p rest ih =>
    simp only [declareParameters, List.foldl_cons, List.map_cons] at ih ⊢
    rw [ih, erase_declare]
    rfl

theorem Statement.erase_environmentAfter (env : Environment σ) (s : Statement σ τ) :
    (s.environmentAfter env).erase = s.erase.environmentAfter env.erase := by
  cases s with
  | declare decl => exact env.erase_declare ..
  | _ => rfl

mutual

theorem Expr.Scoped.erase : ∀ {e : Expr σ τ}, e.Scoped env → e.erase.Scoped env.erase
  | .literal .., _ => trivial
  | .ident .., h => congrArg (Option.map Referent.erase) h
  | .call .., h => ⟨congrArg (Option.map Referent.erase) h.1, Expr.ScopedAll.erase h.2⟩
  | .binary .., h => ⟨Expr.Scoped.erase h.1, Expr.Scoped.erase h.2⟩
  | .negate _ _ operand, h => Expr.Scoped.erase (e := operand) h
  | .cast _ _ operand _, h => Expr.Scoped.erase (e := operand) h

theorem Expr.ScopedAll.erase : ∀ {es : List (Expr σ τ)},
    Expr.ScopedAll env es → Expr.ScopedAll env.erase (Expr.eraseAll es)
  | [], _ => trivial
  | _ :: _, h => ⟨Expr.Scoped.erase h.1, Expr.ScopedAll.erase h.2⟩

end

theorem Expr.scoped?_erase {value : Option (Expr σ τ)} (h : ∀ e ∈ value, e.Scoped env) :
    ∀ e ∈ value.map Expr.erase, e.Scoped env.erase := by
  intro e he
  obtain ⟨e, hmem, rfl⟩ := Option.map_eq_some_iff.1 he
  exact (h e hmem).erase

mutual

theorem Statement.Scoped.erase {env : Environment σ} : ∀ {s : Statement σ τ},
    s.Scoped env → s.erase.Scoped env.erase
  | .declare _, h => Expr.scoped?_erase h
  | .assign .., h => ⟨h.1.erase, congrArg (Option.map Referent.erase) h.2⟩
  | .ret .., h => Expr.scoped?_erase h
  | .ifThen .., h => ⟨h.1.erase, Block.Scoped.erase h.2⟩
  | .ifElse .., h => ⟨h.1.erase, Block.Scoped.erase h.2.1, Block.Scoped.erase h.2.2⟩
  | .expr _ value, h => Expr.Scoped.erase (e := value) h

theorem Block.Scoped.erase {env : Environment σ} : ∀ {b : Block σ τ},
    b.Scoped env → b.erase.Scoped env.erase
  | .mk .., h => Statement.ScopedAll.erase h

theorem Statement.ScopedAll.erase {env : Environment σ} : ∀ {ss : List (Statement σ τ)},
    Statement.ScopedAll env ss → Statement.ScopedAll env.erase (Statement.eraseAll ss)
  | [], _ => trivial
  | s :: _, h => by
    have hrest := Statement.ScopedAll.erase h.2
    rw [Statement.erase_environmentAfter] at hrest
    exact ⟨Statement.Scoped.erase h.1, hrest⟩

end

theorem Program.Lexical.erase {program : Program σ τ} (h : program.Lexical) :
    program.erase.Lexical := by
  have henvironment : program.erase.environment = program.environment.erase := by
    funext name
    rw [environment, Environment.erase, environment, Program.erase, List.find?_map, Option.map_map,
      Option.map_map]
    rfl
  refine ⟨?_, List.forall_mem_map.2 fun d hd => ?_, List.forall_mem_map.2 fun d hd => ?_⟩
  · rw [Program.erase, List.map_map]
    exact h.functions
  · rw [Definition.erase, List.map_map]
    exact h.parameters d hd
  · rw [henvironment, Definition.erase, ← Environment.erase_declareParameters]
    exact (h.bodies d hd).erase

mutual

theorem Statement.declarations_erase : ∀ s : Statement σ τ, s.erase.declarations = s.declarations
  | .declare .. => rfl
  | .assign .. => rfl
  | .ret .. => rfl
  | .ifThen _ _ positive => Block.declarations_erase positive
  | .ifElse _ _ positive negative => by
    rw [Statement.erase, Statement.declarations, Block.declarations_erase positive,
      Block.declarations_erase negative, Statement.declarations]
  | .expr .. => rfl

theorem Block.declarations_erase : ∀ b : Block σ τ, b.erase.declarations = b.declarations
  | .mk _ statements => Statement.declarationsAll_eraseAll statements

theorem Statement.declarationsAll_eraseAll : ∀ ss : List (Statement σ τ),
    Statement.declarationsAll (Statement.eraseAll ss) = Statement.declarationsAll ss
  | [] => rfl
  | s :: rest => by
    rw [Statement.eraseAll, Statement.declarationsAll, Statement.declarations_erase s,
      Statement.declarationsAll_eraseAll rest, Statement.declarationsAll]

end

/-! ## Spans of trees with symbols -/

variable {P : Span → Prop}

mutual

theorem Expr.sourced_of_erase : ∀ {e : Expr σ τ}, e.erase.Sourced P → e.Sourced P
  | .literal .., h => h
  | .ident .., h => h
  | .call .., h => ⟨h.1, h.2.1, Expr.sourcedAll_of_eraseAll h.2.2⟩
  | .binary .., h => ⟨h.1, h.2.1, Expr.sourced_of_erase h.2.2.1, Expr.sourced_of_erase h.2.2.2⟩
  | .negate .., h => ⟨h.1, Expr.sourced_of_erase h.2⟩
  | .cast .., h => ⟨h.1, Expr.sourced_of_erase h.2.1, h.2.2⟩

theorem Expr.sourcedAll_of_eraseAll : ∀ {es : List (Expr σ τ)},
    Expr.SourcedAll P (Expr.eraseAll es) → Expr.SourcedAll P es
  | [], _ => trivial
  | _ :: _, h => ⟨Expr.sourced_of_erase h.1, Expr.sourcedAll_of_eraseAll h.2⟩

end

theorem Expr.sourced?_of_erase {value : Option (Expr σ τ)}
    (h : ∀ e ∈ value.map Expr.erase, e.Sourced P) : ∀ e ∈ value, e.Sourced P := fun e he =>
  Expr.sourced_of_erase (h e.erase (Option.mem_map_of_mem _ he))

mutual

theorem Statement.sourced_of_erase : ∀ {s : Statement σ τ}, s.erase.Sourced P → s.Sourced P
  | .declare _, h => ⟨h.span, h.name, h.ty, Expr.sourced?_of_erase h.initializer⟩
  | .assign .., h => ⟨h.1, h.2.1, Expr.sourced_of_erase h.2.2⟩
  | .ret .., h => ⟨h.1, Expr.sourced?_of_erase h.2⟩
  | .ifThen .., h => ⟨h.1, Expr.sourced_of_erase h.2.1, Block.sourced_of_erase h.2.2⟩
  | .ifElse .., h => ⟨h.1, Expr.sourced_of_erase h.2.1, Block.sourced_of_erase h.2.2.1,
      Block.sourced_of_erase h.2.2.2⟩
  | .expr .., h => ⟨h.1, Expr.sourced_of_erase h.2⟩

theorem Block.sourced_of_erase : ∀ {b : Block σ τ}, b.erase.Sourced P → b.Sourced P
  | .mk .., h => ⟨h.1, Statement.sourcedAll_of_eraseAll h.2⟩

theorem Statement.sourcedAll_of_eraseAll : ∀ {ss : List (Statement σ τ)},
    Statement.SourcedAll P (Statement.eraseAll ss) → Statement.SourcedAll P ss
  | [], _ => trivial
  | _ :: _, h => ⟨Statement.sourced_of_erase h.1, Statement.sourcedAll_of_eraseAll h.2⟩

end

theorem Definition.sourced_of_erase {d : Definition σ τ} (h : d.erase.Sourced P) : d.Sourced P := by
  refine ⟨h.span, h.name, fun p hp => ?_, h.returnType, Block.sourced_of_erase h.body⟩
  have hp := h.parameters p.erase (List.mem_map_of_mem hp)
  exact ⟨hp.span, hp.name, hp.ty⟩

end

/-! ## Complaints -/

/-- A complaint at a span of a source, where the names do not denote what they are used as. -/
structure Misnamed (sourced : (Span → Prop) → Prop) (named : Prop) (diagnostic : Diagnostic) :
    Prop where
  span : ∀ {P}, sourced P → P diagnostic.span
  misnamed : ¬ named

theorem Misnamed.imp {sourced sourced' : (Span → Prop) → Prop} {named named' : Prop}
    {d : Diagnostic} (h : Misnamed sourced named d) (hsourced : ∀ {P}, sourced' P → sourced P)
    (hnamed : named' → named) : Misnamed sourced' named' d :=
  ⟨fun hP => h.span (hsourced hP), fun hn => h.misnamed (hnamed hn)⟩

/-! ## Expressions -/

namespace Scope

def kinds (scope : Scope) : Environment Unit :=
  Environment.erase scope.find?

variable (scope : Scope) (name : Ident)

theorem resolves_variableOf :
    Delivers (fun symbol => scope.find? name.name = some (.var symbol))
      (Misnamed (· name.span) (scope.kinds name.name = some (.var ())))
      (scope.variableOf name) := by
  unfold variableOf kinds Environment.erase
  cases scope.find? name.name with
  | none => exact ⟨id, by simp⟩
  | some referent =>
    cases referent with
    | function symbol => exact ⟨id, by simp [Referent.erase]⟩
    | var symbol => rfl

theorem resolves_functionOf :
    Delivers (fun symbol => scope.find? name.name = some (.function symbol))
      (Misnamed (· name.span) (scope.kinds name.name = some (.function ())))
      (scope.functionOf name) := by
  unfold functionOf kinds Environment.erase
  cases scope.find? name.name with
  | none => exact ⟨id, by simp⟩
  | some referent =>
    cases referent with
    | function symbol => rfl
    | var symbol => exact ⟨id, by simp [Referent.erase]⟩

end Scope

namespace Expr

mutual

theorem resolves (scope : Scope) : ∀ e : Expr Unit Unit,
    Delivers (fun bound => bound.erase = e ∧ bound.Bound scope)
      (Misnamed (e.Sourced ·) (e.Scoped scope.kinds)) (e.resolve scope)
  | .literal .. => ⟨rfl, trivial⟩
  | .ident _ _ name _ => by
    rw [resolve]
    refine (scope.resolves_variableOf name).bind_imp (fun _ h => h.imp And.right id) ?_
    intro symbol hsymbol
    exact ⟨rfl, hsymbol⟩
  | .call _ _ callee _ arguments => by
    rw [resolve]
    refine (scope.resolves_functionOf callee).bind_imp
      (fun _ h => h.imp (fun hs => hs.2.1) And.left) ?_
    intro symbol hsymbol
    refine (resolvesAll scope arguments).bind_imp (fun _ h => h.imp (fun hs => hs.2.2) And.right) ?_
    rintro arguments ⟨rfl, hbound⟩
    exact ⟨rfl, hsymbol, hbound⟩
  | .binary _ _ _ _ lhs rhs => by
    rw [resolve]
    refine (resolves scope lhs).bind_imp (fun _ h => h.imp (fun hs => hs.2.2.1) And.left) ?_
    rintro lhs ⟨rfl, hlhs⟩
    refine (resolves scope rhs).bind_imp (fun _ h => h.imp (fun hs => hs.2.2.2) And.right) ?_
    rintro rhs ⟨rfl, hrhs⟩
    exact ⟨rfl, hlhs, hrhs⟩
  | .negate _ _ operand => by
    rw [resolve]
    refine (resolves scope operand).bind_imp (fun _ h => h.imp And.right id) ?_
    rintro operand ⟨rfl, hbound⟩
    exact ⟨rfl, hbound⟩
  | .cast _ _ operand _ => by
    rw [resolve]
    refine (resolves scope operand).bind_imp (fun _ h => h.imp (fun hs => hs.2.1) id) ?_
    rintro operand ⟨rfl, hbound⟩
    exact ⟨rfl, hbound⟩

theorem resolvesAll (scope : Scope) : ∀ es : List (Expr Unit Unit),
    Delivers (fun bound => eraseAll bound = es ∧ BoundAll scope bound)
      (Misnamed (SourcedAll · es) (ScopedAll scope.kinds es)) (resolveAll scope es)
  | [] => ⟨rfl, trivial⟩
  | e :: rest => by
    rw [resolveAll]
    refine (resolves scope e).bind_imp (fun _ h => h.imp And.left And.left) ?_
    rintro e ⟨rfl, he⟩
    refine (resolvesAll scope rest).bind_imp (fun _ h => h.imp And.right And.right) ?_
    rintro rest ⟨rfl, hrest⟩
    exact ⟨rfl, he, hrest⟩

end

theorem resolves? (scope : Scope) (value : Option (Expr Unit Unit)) :
    Delivers (fun bound => bound.map erase = value ∧ ∀ e ∈ bound, e.Bound scope)
      (Misnamed (fun P => ∀ e ∈ value, e.Sourced P) (∀ e ∈ value, e.Scoped scope.kinds))
      (resolve? scope value) := by
  cases value with
  | none => exact ⟨rfl, by simp⟩
  | some e =>
    refine (resolves scope e).bind_imp (fun _ h => h.imp (fun hs => hs e rfl) fun hn => hn e rfl) ?_
    rintro e ⟨rfl, hbound⟩
    exact ⟨rfl, by simpa using hbound⟩

end Expr

/-! ## Statements -/

structure SymbolTable.Declares (table table' : SymbolTable) (count : Nat) : Prop where
  size : table'.size = table.size + count
  keep : ∀ {id}, id < table.size → table'.get? id = table.get? id
  fresh : ∀ {id}, table.size ≤ id → id < table'.size →
    ∃ name, table'.get? id = some ⟨name, .var none .user⟩

namespace SymbolTable.Declares

theorem refl (table : SymbolTable) : table.Declares table 0 :=
  ⟨rfl, fun _ => rfl, fun h h' => absurd h (Nat.not_le.2 h')⟩

theorem trans {table table' table'' : SymbolTable} {m n : Nat} (h : table.Declares table' m)
    (h' : table'.Declares table'' n) : table.Declares table'' (m + n) := by
  refine ⟨by rw [h'.size, h.size, Nat.add_assoc], ?_, ?_⟩
  · intro id hid
    rw [h'.keep (by rw [h.size]; omega), h.keep hid]
  · intro id hid hlt
    by_cases hmid : id < table'.size
    · rw [h'.keep hmid]
      exact h.fresh hid hmid
    · exact h'.fresh (Nat.le_of_not_lt hmid) hlt

theorem declareVariable (table : SymbolTable) (name : String) :
    table.Declares (table.declareVariable name none .user) 1 := by
  refine ⟨table.size_declareVariable .., ?_, ?_⟩
  · intro id hid
    rw [SymbolTable.declareVariable, get?_insert, if_neg (Nat.ne_of_lt hid)]
  · intro id hid hlt
    rw [size_declareVariable] at hlt
    obtain rfl : id = table.size := by omega
    exact ⟨name, by rw [SymbolTable.declareVariable, get?_insert, if_pos rfl]⟩

end SymbolTable.Declares

structure Statement.Resolved (scope : Scope) (table : SymbolTable) (source : Statement Unit Unit)
    (statement : Statement SymbolId Unit) (scope' : Scope) (table' : SymbolTable) : Prop where
  same : statement.erase = source
  declares : table.Declares table' statement.declarations
  after : table'.size ≤ UInt32.size → scope' = statement.scopeAfter scope
  bound : table'.size ≤ UInt32.size → statement.Bound scope table.size

theorem Statement.kinds_scopeAfter (scope : Scope) (s : Statement SymbolId Unit) :
    (s.scopeAfter scope).kinds = s.erase.environmentAfter scope.kinds := by
  rw [Scope.kinds, find?_scopeAfter, erase_environmentAfter, ← Scope.kinds]

mutual

theorem Statement.resolves (scope : Scope) (table : SymbolTable) : ∀ s : Statement Unit Unit,
    Delivers (fun result => Statement.Resolved scope table s result.1 result.2.1 result.2.2)
      (Misnamed (s.Sourced ·)
        (table.size + s.declarations ≤ UInt32.size ∧ s.Scoped scope.kinds))
      (s.resolve scope table)
  | .declare decl => by
    rw [Statement.resolve]
    refine (Expr.resolves? scope decl.initializer).bind_imp
      (fun _ h => h.imp Local.Sourced.initializer And.right) ?_
    rintro initializer ⟨hsame, hbound⟩
    have hnext : (table.declareVariable decl.name.name none .user).size ≤ UInt32.size →
        table.next = table.size := by
      rw [SymbolTable.size_declareVariable]
      exact SymbolTable.next_eq
    refine ⟨by rw [Statement.erase, hsame], .declareVariable table _, fun hfit => ?_,
      fun hfit => ⟨hbound, hnext hfit⟩⟩
    dsimp only [Statement.scopeAfter]
    rw [SymbolTable.referentOf_var (by
      rw [SymbolTable.declareVariable, SymbolTable.get?_insert, if_pos (hnext hfit)])]
  | .assign _ target _ value => by
    rw [Statement.resolve]
    refine (Expr.resolves scope value).bind_imp
      (fun _ h => h.imp (fun hs => hs.2.2) fun hn => hn.2.1) ?_
    rintro value ⟨rfl, hbound⟩
    refine (scope.resolves_variableOf target).bind_imp
      (fun _ h => h.imp (fun hs => hs.2.1) fun hn => hn.2.2) ?_
    intro symbol hsymbol
    exact ⟨rfl, .refl table, fun _ => rfl, fun _ => ⟨hbound, hsymbol⟩⟩
  | .ret _ value => by
    rw [Statement.resolve]
    refine (Expr.resolves? scope value).bind_imp (fun _ h => h.imp And.right And.right) ?_
    rintro value ⟨rfl, hbound⟩
    exact ⟨rfl, .refl table, fun _ => rfl, fun _ => hbound⟩
  | .ifThen _ condition positive => by
    rw [Statement.resolve]
    refine (Expr.resolves scope condition).bind_imp
      (fun _ h => h.imp (fun hs => hs.2.1) fun hn => hn.2.1) ?_
    rintro condition ⟨rfl, hcondition⟩
    refine (Block.resolves scope table positive).bind_imp
      (fun _ h => h.imp (fun hs => hs.2.2) fun hn => ⟨hn.1, hn.2.2⟩) ?_
    rintro ⟨positive, table₁⟩ ⟨rfl, hdeclares, hbound⟩
    exact ⟨rfl, hdeclares, fun _ => rfl, fun hfit => ⟨hcondition, hbound hfit⟩⟩
  | .ifElse _ condition positive negative => by
    rw [Statement.resolve]
    refine (Expr.resolves scope condition).bind_imp
      (fun _ h => h.imp (fun hs => hs.2.1) fun hn => hn.2.1) ?_
    rintro condition ⟨rfl, hcondition⟩
    refine (Block.resolves scope table positive).bind_imp
      (fun _ h => h.imp (fun hs => hs.2.2.1) fun hn => ⟨?_, hn.2.2.1⟩) ?_
    · have hfit := hn.1
      rw [Statement.declarations] at hfit
      omega
    rintro ⟨positive, table₁⟩ ⟨rfl, hdeclares₁, hbound₁⟩
    have hsize₁ := hdeclares₁.size
    dsimp only at hsize₁ hbound₁ ⊢
    refine (Block.resolves scope table₁ negative).bind_imp
      (fun _ h => h.imp (fun hs => hs.2.2.2) fun hn => ⟨?_, hn.2.2.2⟩) ?_
    · have hfit := hn.1
      rw [Statement.declarations, Block.declarations_erase] at hfit
      omega
    rintro ⟨negative, table₂⟩ ⟨rfl, hdeclares₂, hbound₂⟩
    refine ⟨rfl, hdeclares₁.trans hdeclares₂, fun _ => rfl, fun hfit => ?_⟩
    have hsize₂ := hdeclares₂.size
    dsimp only at hfit hsize₂ hbound₂
    refine ⟨hcondition, hbound₁ (by omega), ?_⟩
    rw [← hsize₁]
    exact hbound₂ hfit
  | .expr _ value => by
    rw [Statement.resolve]
    refine (Expr.resolves scope value).bind_imp (fun _ h => h.imp And.right And.right) ?_
    rintro value ⟨rfl, hbound⟩
    exact ⟨rfl, .refl table, fun _ => rfl, fun _ => hbound⟩

theorem Block.resolves (scope : Scope) (table : SymbolTable) : ∀ block : Block Unit Unit,
    Delivers (fun result => result.1.erase = block ∧ table.Declares result.2 result.1.declarations ∧
        (result.2.size ≤ UInt32.size → result.1.Bound scope table.size))
      (Misnamed (block.Sourced ·)
        (table.size + block.declarations ≤ UInt32.size ∧ block.Scoped scope.kinds))
      (block.resolve scope table)
  | .mk _ statements => by
    rw [Block.resolve]
    refine (Statement.resolvesAll scope table statements).bind_imp
      (fun _ h => h.imp And.right id) ?_
    rintro ⟨statements, table₁⟩ ⟨rfl, hresolved⟩
    exact ⟨rfl, hresolved⟩

theorem Statement.resolvesAll (scope : Scope) (table : SymbolTable) :
    ∀ statements : List (Statement Unit Unit),
      Delivers (fun result => Statement.eraseAll result.1 = statements ∧
          table.Declares result.2 (Statement.declarationsAll result.1) ∧
          (result.2.size ≤ UInt32.size → Statement.BoundAll scope table.size result.1))
        (Misnamed (Statement.SourcedAll · statements)
          (table.size + Statement.declarationsAll statements ≤ UInt32.size ∧
            Statement.ScopedAll scope.kinds statements))
        (Statement.resolveAll scope table statements)
  | [] => ⟨rfl, .refl table, fun _ => trivial⟩
  | statement :: rest => by
    rw [Statement.resolveAll]
    refine (Statement.resolves scope table statement).bind_imp
      (fun _ h => h.imp And.left fun hn => ⟨?_, hn.2.1⟩) ?_
    · have hfit := hn.1
      rw [Statement.declarationsAll] at hfit
      omega
    rintro ⟨statement, scope₁, table₁⟩ ⟨rfl, hdeclares₁, hscope, hbound₁⟩
    have hsize₁ := hdeclares₁.size
    dsimp only at hscope hsize₁ hbound₁ ⊢
    refine (Statement.resolvesAll scope₁ table₁ rest).bind_imp
      (fun _ h => h.imp And.right fun hn => ?_) ?_
    · obtain ⟨hfit, -, hrest⟩ := hn
      rw [Statement.declarationsAll, Statement.declarations_erase] at hfit
      rw [← Statement.kinds_scopeAfter, ← hscope (by omega)] at hrest
      exact ⟨by omega, hrest⟩
    rintro ⟨rest, table₂⟩ ⟨rfl, hdeclares₂, hbound₂⟩
    refine ⟨rfl, hdeclares₁.trans hdeclares₂, fun hfit => ?_⟩
    have hsize₂ := hdeclares₂.size
    dsimp only at hfit hsize₂ hbound₂
    have hfit₁ : table₁.size ≤ UInt32.size := by omega
    refine ⟨hbound₁ hfit₁, ?_⟩
    rw [← hscope hfit₁, ← hsize₁]
    exact hbound₂ hfit

end

/-! ## Headings -/

namespace Parameter

theorem repeated?_eq_none_iff {seen : List String} {parameters : List (Parameter Unit)} :
    repeated? seen parameters = none ↔
      (parameters.map (·.name.name)).Nodup ∧ ∀ p ∈ parameters, p.name.name ∉ seen := by
  induction parameters generalizing seen with
  | nil => simp [repeated?]
  | cons p rest ih =>
    rw [repeated?]
    by_cases hp : p.name.name ∈ seen
    · simp [hp]
    · rw [if_neg hp, ih]
      simp only [List.map_cons, List.nodup_cons, List.mem_map,
        List.mem_cons, not_or, not_exists, not_and]
      grind

theorem mem_of_repeated? {seen : List String} {parameters : List (Parameter Unit)}
    {parameter : Parameter Unit} (h : repeated? seen parameters = some parameter) :
    parameter ∈ parameters := by
  induction parameters generalizing seen with
  | nil => cases h
  | cons p parameters ih =>
    rw [repeated?] at h
    split at h
    · cases h
      exact List.mem_cons_self
    · exact List.mem_cons_of_mem _ (ih h)

structure Declared (table : SymbolTable) (source : List (Parameter Unit))
    (parameters : List (Parameter SymbolId)) (table' : SymbolTable) : Prop where
  same : parameters.map erase = source
  size : table'.size = table.size + parameters.length
  keep : ∀ {id}, id < table.size → table'.get? id = table.get? id
  numbered : table'.size ≤ UInt32.size →
    parameters.map (·.symbol) = List.range' table.size parameters.length
  known : table'.size ≤ UInt32.size → ∀ p ∈ parameters,
    table'.get? p.symbol = some ⟨p.name.name, .var none .parameter⟩

theorem declared_of_declareAll (table : SymbolTable) (source : List (Parameter Unit)) :
    Declared table source (declareAll table source).1 (declareAll table source).2 := by
  induction source generalizing table with
  | nil =>
    exact ⟨rfl, rfl, fun _ => rfl, fun _ => rfl, fun _ _ h => absurd h (by simp [declareAll])⟩
  | cons p rest ih =>
    have hrest := ih (table.declareVariable p.name.name none .parameter)
    have hsize := hrest.size
    rw [SymbolTable.size_declareVariable] at hsize
    have hnext : (declareAll (table.declareVariable p.name.name none .parameter) rest).2.size ≤
        UInt32.size → table.next = table.size := fun hfit => SymbolTable.next_eq (by omega)
    constructor
    · simp only [declareAll, List.map_cons, hrest.same]
      rfl
    · simp only [declareAll, List.length_cons]
      omega
    · intro id hid
      simp only [declareAll]
      rw [hrest.keep (by rw [SymbolTable.size_declareVariable]; omega),
        SymbolTable.declareVariable, SymbolTable.get?_insert, if_neg (Nat.ne_of_lt hid)]
    · intro hfit
      simp only [declareAll, List.map_cons, List.length_cons, List.range'_succ]
      rw [hnext hfit, hrest.numbered hfit, SymbolTable.size_declareVariable]
    · intro hfit q hq
      rcases List.mem_cons.1 hq with rfl | hq
      · simp only [declareAll]
        rw [hnext hfit, hrest.keep (by rw [SymbolTable.size_declareVariable]; omega),
          SymbolTable.declareVariable, SymbolTable.get?_insert, if_pos rfl]
      · exact hrest.known hfit q hq

end Parameter

namespace Definition

structure Declared (scope : Scope) (table : SymbolTable) (source : Definition Unit Unit)
    (heading : Heading) (table' : SymbolTable) : Prop where
  origin : heading.source = source
  same : heading.parameters.map Parameter.erase = source.parameters
  new : scope.find? source.name.name = none
  names : (heading.parameters.map (·.name.name)).Nodup
  size : table'.size = table.size + (1 + heading.parameters.length)
  keep : table'.size ≤ UInt32.size → ∀ {id}, id < table.size → table'.get? id = table.get? id
  numbered : table'.size ≤ UInt32.size → Signature.Numbered table.size [heading.signature]
  known : table'.size ≤ UInt32.size → heading.signature.DeclaredIn table'

theorem declared_enter {scope : Scope} {table : SymbolTable} {source : Definition Unit Unit}
    (hname : scope.find? source.name.name = none)
    (hnodup : (source.parameters.map (·.name.name)).Nodup) :
    Declared scope table source (source.enter table).1 (source.enter table).2 := by
  have hdeclared := Parameter.declared_of_declareAll
    (table.declareFunction source.name.name) source.parameters
  have hsize := hdeclared.size
  rw [SymbolTable.size_declareFunction] at hsize
  have hself : (Parameter.declareAll (table.declareFunction source.name.name)
      source.parameters).2.get? table.size = some ⟨source.name.name, .function [] none⟩ := by
    rw [hdeclared.keep (by rw [SymbolTable.size_declareFunction]; omega),
      SymbolTable.declareFunction, SymbolTable.get?_insert, if_pos rfl]
  have hnext : (Parameter.declareAll (table.declareFunction source.name.name)
      source.parameters).2.size ≤ UInt32.size → table.next = table.size :=
    fun hfit => SymbolTable.next_eq (by omega)
  constructor
  · rfl
  · exact hdeclared.same
  · exact hname
  · rw [← hdeclared.same, List.map_map] at hnodup
    exact hnodup
  · rw [enter, SymbolTable.size_setParameters]
    dsimp only
    omega
  · intro hfit id hid
    rw [enter, SymbolTable.size_setParameters] at hfit
    dsimp only [enter]
    rw [hnext hfit, SymbolTable.setParameters_eq hself, SymbolTable.get?_setKind hself,
      if_neg (Nat.ne_of_lt hid), hdeclared.keep (by rw [SymbolTable.size_declareFunction]; omega),
      SymbolTable.declareFunction, SymbolTable.get?_insert, if_neg (Nat.ne_of_lt hid)]
  · intro hfit
    rw [enter, SymbolTable.size_setParameters] at hfit
    refine ⟨hnext hfit, ?_, trivial⟩
    have hnumbered := hdeclared.numbered hfit
    rwa [SymbolTable.size_declareFunction] at hnumbered
  · intro hfit
    rw [enter, SymbolTable.size_setParameters] at hfit
    dsimp only [enter]
    rw [hnext hfit, SymbolTable.setParameters_eq hself]
    refine ⟨?_, fun p hp => ?_⟩
    · dsimp only [Heading.signature]
      rw [SymbolTable.get?_setKind hself, if_pos rfl]
    · have hp' : p.symbol ∈ List.range' (table.declareFunction source.name.name).size _ :=
        hdeclared.numbered hfit ▸ List.mem_map_of_mem hp
      have hne : p.symbol ≠ table.size := by
        have hle := (List.mem_range'_1.1 hp').1
        rw [SymbolTable.size_declareFunction] at hle
        exact Nat.ne_of_gt hle
      rw [SymbolTable.get?_setKind hself, if_neg hne]
      exact hdeclared.known hfit p hp

theorem declares (scope : Scope) (table : SymbolTable) (source : Definition Unit Unit) :
    Delivers (fun result => Declared scope table source result.1 result.2)
      (Misnamed (source.Sourced ·) (scope.find? source.name.name = none ∧
        (source.parameters.map (·.name.name)).Nodup))
      (source.declare scope table) := by
  unfold declare
  cases hname : scope.find? source.name.name with
  | some referent => exact ⟨Definition.Sourced.name, fun hn => by cases hn.1⟩
  | none =>
    cases hrepeated : Parameter.repeated? [] source.parameters with
    | none => exact declared_enter hname (Parameter.repeated?_eq_none_iff.1 hrepeated).1
    | some p =>
      refine ⟨fun hs => (hs.parameters p (Parameter.mem_of_repeated? hrepeated)).name, fun hn => ?_⟩
      rw [Parameter.repeated?_eq_none_iff.2 ⟨hn.2, by simp⟩] at hrepeated
      cases hrepeated

structure DeclaredAll (scope : Scope) (table : SymbolTable) (signatures : List Signature)
    (scope' : Scope) (table' : SymbolTable) : Prop where
  after : table'.size ≤ UInt32.size → scope' = Signature.scope signatures ++ scope
  names : (signatures.map (·.name)).Nodup
  new : ∀ s ∈ signatures, scope.find? s.name = none
  parameterNames : ∀ s ∈ signatures, (s.parameters.map (·.name.name)).Nodup
  size : table'.size = table.size + Signature.count signatures
  keep : table'.size ≤ UInt32.size → ∀ {id}, id < table.size → table'.get? id = table.get? id
  numbered : table'.size ≤ UInt32.size → Signature.Numbered table.size signatures
  known : table'.size ≤ UInt32.size → ∀ s ∈ signatures, s.DeclaredIn table'

theorem DeclaredAll.cons {scope scope' : Scope} {table table₁ table' : SymbolTable}
    {source : Definition Unit Unit} {heading : Heading} {signatures : List Signature}
    (h : Declared scope table source heading table₁)
    (hrest : DeclaredAll (scope.declare source.name.name (table₁.referentOf heading.symbol))
      table₁ signatures scope' table') :
    DeclaredAll scope table (heading.signature :: signatures) scope' table' := by
  have hsize := hrest.size
  have hsize₁ := h.size
  have hname : heading.signature.name = source.name.name := by
    rw [Heading.signature, h.origin]
  constructor
  · intro hfit
    have hfunction : table₁.referentOf heading.symbol = .function heading.symbol :=
      SymbolTable.referentOf_function (h.known (by omega)).1
    rw [hrest.after hfit, hfunction]
    simp [Signature.scope, Scope.declare, Heading.signature, h.origin]
  · refine List.nodup_cons.2 ⟨fun hmem => ?_, hrest.names⟩
    obtain ⟨s, hs, heq⟩ := List.mem_map.1 hmem
    have hnew := hrest.new s hs
    rw [heq.trans hname] at hnew
    simp [Scope.declare, Scope.find?] at hnew
  · refine List.forall_mem_cons.2 ⟨hname ▸ h.new, fun s hs => ?_⟩
    have hnew := hrest.new s hs
    rw [Scope.find?_declare] at hnew
    split at hnew
    · cases hnew
    · exact hnew
  · exact List.forall_mem_cons.2 ⟨h.names, hrest.parameterNames⟩
  · simp only [Signature.count, Heading.signature] at hsize ⊢
    omega
  · intro hfit id hid
    rw [hrest.keep hfit (by omega), h.keep (by omega) hid]
  · intro hfit
    obtain ⟨hsymbol, hparameters, -⟩ := h.numbered (by omega)
    refine ⟨hsymbol, hparameters, ?_⟩
    have hnumbered := hrest.numbered hfit
    rwa [hsize₁, ← Nat.add_assoc] at hnumbered
  · exact fun hfit => List.forall_mem_cons.2
      ⟨(h.known (by omega)).keep (hrest.keep hfit), hrest.known hfit⟩

theorem declaresAll (scope : Scope) (table : SymbolTable) (sources : List (Definition Unit Unit)) :
    Delivers (fun result => (result.1.map (·.source) = sources ∧ ∀ heading ∈ result.1,
          heading.parameters.map Parameter.erase = heading.source.parameters) ∧
        DeclaredAll scope table (result.1.map Heading.signature) result.2.1 result.2.2)
      (Misnamed (fun P => ∀ d ∈ sources, d.Sourced P)
        ((sources.map (·.name.name)).Nodup ∧ (∀ d ∈ sources, scope.find? d.name.name = none) ∧
          ∀ d ∈ sources, (d.parameters.map (·.name.name)).Nodup))
      (declareAll scope table sources) := by
  induction sources generalizing scope table with
  | nil =>
    exact ⟨⟨rfl, by simp⟩, fun _ => rfl, List.nodup_nil, by simp, by simp, rfl, fun _ _ _ => rfl,
      fun _ => trivial, by simp⟩
  | cons source rest ih =>
    rw [declareAll]
    refine (declares scope table source).bind_imp (fun _ h => h.imp (fun hs => hs source (by simp))
      fun hn => ⟨hn.2.1 source (by simp), hn.2.2 source (by simp)⟩) ?_
    rintro ⟨heading, table₁⟩ hd
    refine (ih _ table₁).bind_imp (fun _ h => h.imp (fun hs d hd => hs d (by simp [hd]))
      fun hn => ⟨(List.nodup_cons.1 hn.1).2, fun d hd => ?_, fun d hd => hn.2.2 d (by simp [hd])⟩)
        ?_
    · rw [Scope.find?_declare, if_neg fun heq => (List.nodup_cons.1 hn.1).1 ?_]
      · exact hn.2.1 d (by simp [hd])
      · exact List.mem_map.2 ⟨d, hd, heq⟩
    rintro ⟨headings, scope₂, table₂⟩ ⟨⟨hsources, hsame⟩, hr⟩
    refine ⟨⟨?_, List.forall_mem_cons.2 ⟨?_, hsame⟩⟩, .cons hd hr⟩
    · rw [List.map_cons, hsources, hd.origin]
    · rw [hd.same, hd.origin]

end Definition

/-! ## Bodies -/

theorem Heading.resolvesAll (scope : Scope) (table : SymbolTable) (headings : List Heading)
    (hparameters : ∀ heading ∈ headings,
      heading.parameters.map Parameter.erase = heading.source.parameters) :
    Delivers (fun result => result.1.map Definition.erase = headings.map (·.source) ∧
        result.1.map Definition.signature = headings.map Heading.signature ∧
        table.Declares result.2 (Definition.declarationsAll result.1) ∧
        (result.2.size ≤ UInt32.size → (∀ heading ∈ headings, heading.signature.DeclaredIn table) →
          Definition.BoundAll scope table.size result.1))
      (Misnamed (fun P => ∀ heading ∈ headings, heading.source.Sourced P)
        (table.size + (headings.map fun heading => heading.source.body.declarations).sum ≤
            UInt32.size ∧ (∀ heading ∈ headings, heading.signature.DeclaredIn table) ∧
          ∀ heading ∈ headings,
            heading.source.body.Scoped (scope.declareParameters heading.parameters).kinds))
      (resolveAll scope table headings) := by
  induction headings generalizing table with
  | nil => exact ⟨rfl, rfl, .refl table, fun _ _ => trivial⟩
  | cons heading rest ih =>
    rw [List.forall_mem_cons] at hparameters
    have henter : heading.signature.DeclaredIn table →
        scope.enter table heading.parameters = scope.declareParameters heading.parameters :=
      fun hknown => Scope.enter_eq hknown.2
    simp only [resolveAll, resolve, bind_assoc, pure_bind, List.forall_mem_cons, List.map_cons,
      List.sum_cons]
    refine (Block.resolves _ table heading.source.body).bind_imp
      (fun _ h => h.imp (fun hs => hs.1.body) fun hn => ⟨?_, ?_⟩) ?_
    · have hfit := hn.1
      omega
    · rw [henter hn.2.1.1]
      exact hn.2.2.1
    rintro ⟨body, table₁⟩ ⟨hsame, hdeclares₁, hbound₁⟩
    have hsize₁ := hdeclares₁.size
    dsimp only at hsame hsize₁ hbound₁
    refine (ih table₁ hparameters.2).bind_imp (fun _ h => h.imp And.right fun hn =>
      ⟨?_, fun h hh => (hn.2.1.2 h hh).keep hdeclares₁.keep, hn.2.2.2⟩) ?_
    · have hfit := hn.1
      rw [← hsame, Block.declarations_erase] at hfit
      omega
    rintro ⟨functions, table₂⟩ ⟨hsames, hsignatures, hdeclares₂, hbound₂⟩
    have hsize₂ := hdeclares₂.size
    dsimp only at hsames hsize₂ hbound₂
    refine ⟨?_, by simp [hsignatures, Definition.signature, Heading.signature],
      hdeclares₁.trans hdeclares₂, fun hfit hknown => ?_⟩
    · rw [List.map_cons, hsames, Definition.erase, hsame, hparameters.1]
    · dsimp only at hfit
      rw [henter hknown.1] at hbound₁
      refine ⟨hbound₁ (by omega), ?_⟩
      dsimp only
      rw [← hsize₁]
      exact hbound₂ hfit fun heading hheading =>
        (hknown.2 heading hheading).keep hdeclares₁.keep

/-! ## Programs -/

theorem Scope.find?_declareParameters (scope : Scope) (parameters : List (Parameter SymbolId)) :
    (scope.declareParameters parameters).find? =
      Environment.declareParameters scope.find? parameters := by
  induction parameters generalizing scope with
  | nil => rfl
  | cons p rest ih =>
    simp only [declareParameters, Environment.declareParameters, List.foldl_cons] at ih ⊢
    rw [ih, funext (scope.find?_declare _ _)]
    rfl

theorem Signature.find?_scope_of_nodup {signatures : List Signature}
    (hnodup : (signatures.map (·.name)).Nodup) (name : String) :
    (Signature.scope signatures).find? name =
      (signatures.find? (·.name = name)).map fun s => .function s.symbol := by
  induction signatures with
  | nil => rfl
  | cons s rest ih =>
    rw [List.map_cons, List.nodup_cons] at hnodup
    have hrest := ih hnodup.2
    have hscope : (Signature.scope (s :: rest)).find? name =
        ((Signature.scope rest).find? name).or
          (Scope.find? [(s.name, .function s.symbol)] name) := by
      simp only [Signature.scope, List.map_cons, List.reverse_cons, Scope.find?, List.lookup_append]
    by_cases hname : s.name = name
    · have hnone : rest.find? (·.name = name) = none := by
        rw [List.find?_eq_none]
        intro s' hs' heq
        exact hnodup.1 (List.mem_map.2 ⟨s', hs', (of_decide_eq_true heq).trans hname.symm⟩)
      rw [hscope, hrest, hnone, List.find?_cons_of_pos (by simpa using hname)]
      simp [Scope.find?, hname]
    · have hnone : Scope.find? [(s.name, .function s.symbol)] name = none := by
        simp [Scope.find?, List.lookup_cons, beq_eq_false_iff_ne.2 (Ne.symm hname)]
      rw [hscope, hnone, Option.or_none, List.find?_cons_of_neg (by simpa using hname)]
      exact hrest

theorem Definition.declarationsAll_eq {τ : Type} (definitions : List (Definition SymbolId τ)) :
    declarationsAll definitions =
      ((definitions.map erase).map fun d => d.body.declarations).sum := by
  induction definitions with
  | nil => rfl
  | cons d rest ih =>
    rw [declarationsAll, ih, List.map_cons, List.map_cons, List.sum_cons, erase,
      Block.declarations_erase]

theorem Heading.count_signatures {headings : List Heading} (h : ∀ heading ∈ headings,
      heading.parameters.map Parameter.erase = heading.source.parameters) :
    Signature.count (headings.map signature) =
      ((headings.map (·.source)).map fun d => 1 + d.parameters.length).sum := by
  induction headings with
  | nil => rfl
  | cons heading rest ih =>
    rw [List.forall_mem_cons] at h
    rw [List.map_cons, Signature.count, ih h.2, List.map_cons, List.map_cons, List.sum_cons, ← h.1,
      List.length_map]
    rfl

namespace Program

/-- The names in sight of a body are the same in the text and behind the headings. -/
theorem Lexical.scoped_headings {parsed : Program.Parsed} {headings : List Heading}
    (h : parsed.Lexical) (hsources : headings.map (·.source) = parsed.functions)
    (hparameters : ∀ heading ∈ headings,
      heading.parameters.map Parameter.erase = heading.source.parameters)
    (hnames : ((headings.map Heading.signature).map (·.name)).Nodup) :
    ∀ heading ∈ headings, heading.source.body.Scoped
      ((Signature.scope (headings.map Heading.signature)).declareParameters
        heading.parameters).kinds := by
  have hfunctions : (Signature.scope (headings.map Heading.signature)).kinds =
      parsed.environment := by
    funext name
    rw [Scope.kinds, Environment.erase, Signature.find?_scope_of_nodup hnames, environment,
      ← hsources, List.find?_map, List.find?_map, Option.map_map, Option.map_map, Option.map_map]
    rfl
  intro heading hheading
  rw [Scope.kinds, Scope.find?_declareParameters, Environment.erase_declareParameters,
    ← Scope.kinds, hfunctions, hparameters heading hheading]
  exact h.bodies _ (hsources ▸ List.mem_map_of_mem hheading)

theorem resolves (parsed : Program.Parsed) :
    Delivers (fun result => (result.1.erase = parsed ∧ result.2.size = parsed.declarations) ∧
        (result.2.size ≤ UInt32.size → result.1.Bound ∧ result.1.DeclaredIn result.2))
      (Misnamed (fun P => ∀ d ∈ parsed.functions, d.Sourced P)
        (parsed.declarations ≤ UInt32.size ∧ parsed.Lexical)) parsed.resolve := by
  refine (Definition.declaresAll [] {} parsed.functions).bind_imp (fun _ h => h.imp id
    fun hn => ⟨hn.2.functions, fun _ _ => rfl, hn.2.parameters⟩) ?_
  rintro ⟨headings, scope, table₁⟩ ⟨⟨hsources, hparameters⟩, hd⟩
  have hsize₁ : table₁.size = Signature.count (headings.map Heading.signature) :=
    hd.size.trans (Nat.zero_add _)
  have hscope : table₁.size ≤ UInt32.size →
      scope = Signature.scope (headings.map Heading.signature) :=
    fun hfit => (hd.after hfit).trans (List.append_nil _)
  dsimp only at hsources hparameters hd ⊢
  have hcount : parsed.declarations =
      table₁.size + (headings.map fun heading => heading.source.body.declarations).sum := by
    rw [hsize₁, Heading.count_signatures hparameters, declarations, ← hsources, List.map_map,
      List.map_map]
    rfl
  refine (Heading.resolvesAll scope table₁ headings hparameters).bind_imp
    (fun _ h => h.imp (fun hs heading hheading => ?_) fun hn => ?_) ?_
  · exact hs _ (hsources ▸ List.mem_map_of_mem hheading)
  · have hfit := hn.1
    have hfit₁ : table₁.size ≤ UInt32.size := by omega
    refine ⟨hcount ▸ hfit, fun heading hheading => ?_, ?_⟩
    · exact hd.known hfit₁ _ (List.mem_map_of_mem hheading)
    · rw [hscope hfit₁]
      exact hn.2.scoped_headings hsources hparameters hd.names
  rintro ⟨functions, table₂⟩ ⟨hsame, hsignatures, hdeclares, hbound⟩
  have hsize₂ := hdeclares.size
  dsimp only at hsame hsignatures hsize₂ hbound
  refine ⟨⟨by rw [erase, hsame, hsources], ?_⟩, fun hfit => ?_⟩
  · dsimp only
    rw [hcount, hsize₂, Definition.declarationsAll_eq, hsame, List.map_map]
    rfl
  dsimp only at hfit
  have hfit₁ : table₁.size ≤ UInt32.size := by omega
  have hbodies := hbound hfit fun heading hheading =>
    hd.known hfit₁ _ (List.mem_map_of_mem hheading)
  rw [hscope hfit₁, hsize₁] at hbodies
  constructor
  · constructor <;> dsimp only [signatures] <;> rw [hsignatures]
    · exact hd.names
    · exact hd.parameterNames
    · exact hd.numbered hfit₁
    · exact hbodies
  · constructor <;> dsimp only [signatures] <;> rw [hsignatures]
    · rw [hsize₂, hsize₁]
    · intro s hs
      exact (hd.known hfit₁ s hs).keep hdeclares.keep
    · intro id hid hlt
      exact hdeclares.fresh (by omega) hlt

/-- Binding names keeps the spans and the integers of a program, and complains about its spans. -/
theorem delivers_resolve {P : Span → Prop} {parsed : Program.Parsed}
    (h : ∀ d ∈ parsed.functions, d.Sourced P) :
    Delivers (fun result => ∀ d ∈ result.1.functions, d.Sourced P)
      (fun diagnostic => P diagnostic.span) parsed.resolve := by
  have hresolves := parsed.resolves
  cases hrun : parsed.resolve with
  | error diagnostic => exact (hresolves.of_error hrun).span h
  | ok result =>
    obtain ⟨⟨rfl, -⟩, -⟩ := hresolves.of_eq_ok hrun
    intro d hd
    exact Definition.sourced_of_erase (h _ (List.mem_map_of_mem hd))

end Program

end Cinder
