import Cinder.Program.ScopeStack
import Cinder.Proofs.Program.Scoping

/-!
# Binding names with a stack of scopes

Whatever is done in a scope leaves the scopes around it alone, also where the program is
rejected, so a block ends with the scopes that it has begun with.  Scopes on the stack show the
same names as the list of visible names that is handed down the tree, and the table says what
they stand for.  So binding names does what the rules say, down to the complaint about a program
that is wrong, and no scope is closed or added to that is not open.
-/

namespace Cinder

variable {α β γ : Type} {binder : Binder} {scope : Scope}

/-! ## Scopes -/

namespace ScopeStack

variable {scopes scopes' : ScopeStack}

@[simp] theorem find?_push (scopes : ScopeStack) (name : String) :
    scopes.push.find? name = scopes.find? name := by
  simp [push, find?]

theorem find?_bind {name : String} {symbol : SymbolId} (h : scopes.bind name symbol = .ok scopes')
    (n : String) : scopes'.find? n = if n = name then some symbol else scopes.find? n := by
  unfold bind at h
  split at h
  · cases h
  · rename_i scope outer hshallow
    cases h
    simp only [find?, hshallow, List.findSome?_cons, Std.ExtTreeMap.getElem?_insert,
      Std.LawfulEqCmp.compare_eq_iff_eq, eq_comm (a := name)]
    by_cases hn : n = name
    · rw [if_pos hn, if_pos hn, Option.some_or]
    · rw [if_neg hn, if_neg hn]

theorem find?_of_shallow (h : scopes.shallow = []) (name : String) :
    scopes.find? name = scopes.globals[name]? := by
  rw [find?, h, List.findSome?_nil, Option.none_or]

theorem find?_bindGlobal (h : scopes.shallow = []) (name : String) (symbol : SymbolId)
    (n : String) : (scopes.bindGlobal name symbol).find? n =
      if n = name then some symbol else scopes.find? n := by
  have hshallow : (scopes.bindGlobal name symbol).shallow = [] := h
  rw [find?_of_shallow h, find?_of_shallow hshallow, bindGlobal, Std.ExtTreeMap.getElem?_insert]
  simp only [Std.LawfulEqCmp.compare_eq_iff_eq, eq_comm (a := name)]

end ScopeStack

theorem Binding.bind_apply (x : Binding α) (f : α → Binding β) (binder : Binder) :
    (x >>= f) binder = match x binder with
      | .ok a binder => f a binder
      | .error failure binder => .error failure binder := by
  change EStateM.bind x f binder = _
  unfold EStateM.bind
  cases x binder <;> rfl

/-! ## Visible names -/

theorem mapError_bind {ε ε' : Type} (f : ε → ε') (x : Except ε α) (g : α → Except ε β) :
    (x >>= g).mapError f = x.mapError f >>= fun a => (g a).mapError f := by
  cases x <;> rfl

theorem mapError_pure {ε ε' : Type} (f : ε → ε') (a : α) :
    (pure a : Except ε α).mapError f = pure a :=
  rfl

/-- A table in which the symbols of another one are what they were. -/
structure SymbolTable.Extends (table table' : SymbolTable) : Prop where
  size : table.size ≤ table'.size
  referentOf : ∀ {id}, id < table.size → table'.referentOf id = table.referentOf id

namespace SymbolTable.Extends

theorem refl (table : SymbolTable) : table.Extends table :=
  ⟨Nat.le_refl _, fun _ => rfl⟩

theorem trans {table table' table'' : SymbolTable} (h : table.Extends table')
    (h' : table'.Extends table'') : table.Extends table'' :=
  ⟨Nat.le_trans h.size h'.size, fun hid =>
    (h'.referentOf (Nat.lt_of_lt_of_le hid h.size)).trans (h.referentOf hid)⟩

theorem insert (table : SymbolTable) (symbol : Symbol) : table.Extends (table.insert symbol) := by
  refine ⟨by rw [size_insert]; exact Nat.le_succ _, fun hid => ?_⟩
  rw [SymbolTable.referentOf, get?_insert, if_neg (Nat.ne_of_lt hid)]
  rfl

theorem setParameters (table : SymbolTable) (id : SymbolId) (parameters : List SymbolId) :
    table.Extends (table.setParameters id parameters) := by
  refine ⟨Nat.le_of_eq (size_setParameters ..).symm, fun {j} _ => ?_⟩
  unfold SymbolTable.setParameters
  split
  · rename_i hget
    rw [SymbolTable.referentOf, get?_setKind hget]
    by_cases hj : j = id
    · rw [if_pos hj, hj, SymbolTable.referentOf_function hget]
    · rw [if_neg hj]
      rfl
  · rfl

end SymbolTable.Extends

/-- The scopes that are open show the names of a list, and the table says what they stand for. -/
structure Binder.Shows (binder : Binder) (scope : Scope) : Prop where
  hidden : ∀ {name}, binder.scopes.find? name = none → scope.find? name = none
  shown : ∀ {name id}, binder.scopes.find? name = some id → id < binder.symbols.size ∧
    scope.find? name = some (binder.symbols.referentOf id)

namespace Binder.Shows

variable {b : Binder}

theorem extend (h : binder.Shows scope)
    (hscopes : ∀ name, b.scopes.find? name = binder.scopes.find? name)
    (hextends : binder.symbols.Extends b.symbols) : b.Shows scope := by
  constructor
  · intro name hname
    exact h.hidden ((hscopes name).symm.trans hname)
  · intro name id hname
    obtain ⟨hid, hscope⟩ := h.shown ((hscopes name).symm.trans hname)
    exact ⟨Nat.lt_of_lt_of_le hid hextends.size, by rw [hextends.referentOf hid, hscope]⟩

/-- One more declaration, in the scopes and in the list. -/
theorem declare (h : binder.Shows scope) {name : String} {id : SymbolId}
    (hscopes : ∀ n, b.scopes.find? n = if n = name then some id else binder.scopes.find? n)
    (hextends : binder.symbols.Extends b.symbols) (hid : id < b.symbols.size) :
    b.Shows (scope.declare name (b.symbols.referentOf id)) := by
  constructor
  · intro n hn
    rw [hscopes] at hn
    split at hn
    · cases hn
    · rename_i hne
      rw [Scope.find?_declare, if_neg hne]
      exact h.hidden hn
  · intro n j hn
    rw [hscopes] at hn
    rw [Scope.find?_declare]
    by_cases hname : n = name
    · rw [if_pos hname] at hn ⊢
      cases hn
      exact ⟨hid, rfl⟩
    · rw [if_neg hname] at hn ⊢
      obtain ⟨hj, hscope⟩ := h.shown hn
      exact ⟨Nat.lt_of_lt_of_le hj hextends.size, by rw [hextends.referentOf hj, hscope]⟩

theorem lookups_eq (h : binder.Shows scope) (name : Ident) :
    binder.variableOf name = (scope.variableOf name).mapError .rejected ∧
      binder.functionOf name = (scope.functionOf name).mapError .rejected := by
  unfold Binder.variableOf Binder.functionOf Scope.variableOf Scope.functionOf
  cases hname : binder.scopes.find? name.name with
  | none =>
    rw [h.hidden hname]
    exact ⟨rfl, rfl⟩
  | some id =>
    obtain ⟨hid, hscope⟩ := h.shown hname
    obtain ⟨⟨_, kind⟩, hsymbol⟩ := SymbolTable.exists_get? hid
    rw [hscope, SymbolTable.referentOf, hsymbol]
    dsimp only
    rw [SymbolTable.get_eq_ok.2 hsymbol]
    cases kind <;> exact ⟨rfl, rfl⟩

end Binder.Shows

/-! ## Expressions -/

namespace Expr

mutual

theorem bindNames_eq (h : binder.Shows scope) : ∀ e : Expr Unit Unit,
    e.bindNames binder = (e.resolve scope).mapError .rejected
  | .literal .. => rfl
  | .ident .. => by
    simp only [bindNames, resolve, mapError_bind, mapError_pure, (h.lookups_eq _).1]
  | .call _ _ _ _ arguments => by
    simp only [bindNames, resolve, mapError_bind, mapError_pure, (h.lookups_eq _).2,
      bindAll_eq h arguments]
  | .binary _ _ _ _ lhs rhs => by
    simp only [bindNames, resolve, mapError_bind, mapError_pure, bindNames_eq h lhs,
      bindNames_eq h rhs]
  | .negate _ _ operand => by
    simp only [bindNames, resolve, mapError_bind, mapError_pure, bindNames_eq h operand]
  | .cast _ _ operand _ => by
    simp only [bindNames, resolve, mapError_bind, mapError_pure, bindNames_eq h operand]

theorem bindAll_eq (h : binder.Shows scope) : ∀ es : List (Expr Unit Unit),
    bindAll binder es = (resolveAll scope es).mapError .rejected
  | [] => rfl
  | e :: rest => by
    simp only [bindAll, resolveAll, mapError_bind, mapError_pure, bindNames_eq h e,
      bindAll_eq h rest]

end

theorem bindNames?_eq (h : binder.Shows scope) (value : Option (Expr Unit Unit)) :
    bindNames? binder value = (resolve? scope value).mapError .rejected := by
  cases value with
  | none => rfl
  | some e => simp only [bindNames?, resolve?, mapError_bind, mapError_pure, bindNames_eq h]

end Expr

/-! ## Actions and computations -/

/-- The same tree and table, in which older symbols are what they were. -/
structure Binder.Yields (binder : Binder) (a : α) (b : Binder) (result : α × SymbolTable) :
    Prop where
  result : result = (a, b.symbols)
  grows : binder.symbols.Extends b.symbols

/-- An action ends as a computation without state does: with results that are related, or in
the same complaint.  Either way it leaves scopes with a property. -/
def Matches (I : ScopeStack → Prop) (R : α → Binder → β → Prop) :
    EStateM.Result Failure Binder α → Except Diagnostic β → Prop
  | .ok a b, .ok c => I b.scopes ∧ R a b c
  | .error failure b, .error diagnostic => I b.scopes ∧ failure = .rejected diagnostic
  | _, _ => False

/-- One more scope is open than in a stack, which is otherwise the same. -/
def ScopeStack.Over (outer scopes : ScopeStack) : Prop :=
  ∃ scope, scopes = ⟨outer.globals, scope :: outer.shallow⟩

theorem ScopeStack.Over.push (scopes : ScopeStack) : scopes.Over scopes.push :=
  ⟨∅, rfl⟩

theorem ScopeStack.Over.exists_bind {outer scopes : ScopeStack} (h : outer.Over scopes)
    (name : String) (symbol : SymbolId) :
    ∃ scopes', scopes.bind name symbol = .ok scopes' ∧ outer.Over scopes' := by
  obtain ⟨scope, rfl⟩ := h
  exact ⟨_, rfl, _, rfl⟩

theorem ScopeStack.Over.pop {outer scopes : ScopeStack} (h : outer.Over scopes) :
    scopes.pop = .ok outer := by
  obtain ⟨scope, rfl⟩ := h
  rfl

def Binder.nested (binder : Binder) : Binder :=
  { binder with scopes := binder.scopes.push }

namespace Matches

variable {δ : Type} {I J : ScopeStack → Prop} {R : α → Binder → β → Prop}
  {S : γ → Binder → δ → Prop}

theorem bind {x : Binding α} {y : Except Diagnostic β} {f : α → Binding γ}
    {g : β → Except Diagnostic δ} (hx : Matches I R (x binder) y) (hI : ∀ {s}, I s → J s)
    (hf : ∀ a b c, I b.scopes → R a b c → Matches J S (f a b) (g c)) :
    Matches J S ((x >>= f) binder) (y >>= g) := by
  rw [Binding.bind_apply]
  match x binder, y, hx with
  | .ok a b, .ok c, hx => exact hf a b c hx.1 hx.2
  | .error _ _, .error _, hx => exact ⟨hI hx.1, hx.2⟩

theorem read_bind {look : Binder → Except Failure α} {y : Except Diagnostic α} {f : α → Binding γ}
    {g : α → Except Diagnostic δ} (hx : look binder = y.mapError .rejected) (hJ : J binder.scopes)
    (hf : ∀ a, Matches J S (f a binder) (g a)) :
    Matches J S ((Binder.read look >>= f) binder) (y >>= g) := by
  rw [Binding.bind_apply, Binder.read, hx]
  cases y with
  | ok a => exact hf a
  | error diagnostic => exact ⟨hJ, rfl⟩

/-- A scope of its own is closed in the end, and leaves the scopes as they were. -/
theorem inScope {x : Binding α} {y : Except Diagnostic (α × SymbolTable)}
    (h : Matches binder.scopes.Over binder.nested.Yields (x binder.nested) y) :
    Matches (· = binder.scopes) binder.Yields (Binder.inScope x binder) y := by
  simp only [Binder.inScope, tryFinally, Binding.bind_apply, Binder.changeScopes, tryFinally',
    Functor.map, EStateM.map]
  rw [show (⟨binder.scopes.push, binder.symbols⟩ : Binder) = binder.nested from rfl]
  match x binder.nested, y, h with
  | .ok a b, .ok c, h =>
    dsimp only
    rw [h.1.pop]
    exact ⟨rfl, h.2.result, h.2.grows⟩
  | .error failure b, .error diagnostic, h =>
    dsimp only
    rw [h.1.pop]
    exact ⟨rfl, h.2⟩

end Matches

/-! ## Statements -/

theorem Binder.declare_apply {outer : ScopeStack} (h : binder.Shows scope)
    (hover : outer.Over binder.scopes) (name : String) :
    let symbols := binder.symbols.declareVariable name none .user
    ∃ scopes, Binder.declare name binder = .ok binder.symbols.next ⟨scopes, symbols⟩ ∧
      outer.Over scopes ∧ Binder.Shows ⟨scopes, symbols⟩
        (scope.declare name (symbols.referentOf binder.symbols.next)) := by
  obtain ⟨scopes, hscopes, hover'⟩ := hover.exists_bind name binder.symbols.next
  refine ⟨scopes, ?_, hover', h.declare (ScopeStack.find?_bind hscopes) (.insert ..) ?_⟩
  · change (Binder.changeScopes _ >>= fun _ => pure _) (Binder.mk ..) = _
    rw [Binding.bind_apply, Binder.changeScopes, hscopes]
    rfl
  · rw [SymbolTable.size_declareVariable]
    exact Nat.lt_succ_of_le (Nat.mod_le ..)

mutual

theorem Statement.matches_bindNames {outer : ScopeStack} : ∀ (s : Statement Unit Unit)
    {binder : Binder} {scope : Scope}, binder.Shows scope → outer.Over binder.scopes →
      Matches outer.Over (fun a b r => b.Shows r.2.1 ∧ binder.Yields a b (r.1, r.2.2))
        (s.bindNames binder) (s.resolve scope binder.symbols)
  | .declare decl, binder, _, h, hover => by
    rw [Statement.bindNames, Statement.resolve]
    apply Matches.read_bind (Expr.bindNames?_eq h decl.initializer) hover
    intro initializer
    obtain ⟨scopes, hrun, hover', hshows⟩ := binder.declare_apply h hover decl.name.name
    rw [Binding.bind_apply, hrun]
    exact ⟨hover', hshows, rfl, .insert ..⟩
  | .assign _ target _ value, _, _, h, hover => by
    rw [Statement.bindNames, Statement.resolve]
    apply Matches.read_bind (Expr.bindNames_eq h value) hover
    intro value
    apply Matches.read_bind (h.lookups_eq target).1 hover
    intro symbol
    exact ⟨hover, h, rfl, .refl _⟩
  | .ret _ value, _, _, h, hover => by
    rw [Statement.bindNames, Statement.resolve]
    apply Matches.read_bind (Expr.bindNames?_eq h value) hover
    intro value
    exact ⟨hover, h, rfl, .refl _⟩
  | .ifThen _ condition positive, _, _, h, hover => by
    rw [Statement.bindNames, Statement.resolve]
    apply Matches.read_bind (Expr.bindNames_eq h condition) hover
    intro condition
    apply Matches.bind (Block.matches_bindNames positive h) (· ▸ hover)
    rintro positive b _ hscopes ⟨rfl, hextends⟩
    exact ⟨hscopes ▸ hover, h.extend (by simp [hscopes]) hextends, rfl, hextends⟩
  | .ifElse _ condition positive negative, _, _, h, hover => by
    rw [Statement.bindNames, Statement.resolve]
    apply Matches.read_bind (Expr.bindNames_eq h condition) hover
    intro condition
    apply Matches.bind (Block.matches_bindNames positive h) (· ▸ hover)
    rintro positive b _ hscopes ⟨rfl, hextends⟩
    have h₁ := h.extend (b := b) (by simp [hscopes]) hextends
    apply Matches.bind (Block.matches_bindNames negative h₁) (· ▸ hscopes ▸ hover)
    rintro negative b' _ hscopes' ⟨rfl, hextends'⟩
    exact ⟨by rwa [hscopes', hscopes], h₁.extend (by simp [hscopes']) hextends', rfl,
      hextends.trans hextends'⟩
  | .expr _ value, _, _, h, hover => by
    rw [Statement.bindNames, Statement.resolve]
    apply Matches.read_bind (Expr.bindNames_eq h value) hover
    intro value
    exact ⟨hover, h, rfl, .refl _⟩

theorem Block.matches_bindNames : ∀ (block : Block Unit Unit) {binder : Binder} {scope : Scope},
    binder.Shows scope → Matches (· = binder.scopes) binder.Yields (block.bindNames binder)
      (block.resolve scope binder.symbols)
  | .mk _ statements, binder, scope, h => by
    rw [Block.bindNames, Block.resolve]
    have hnested : binder.nested.Shows scope := h.extend (ScopeStack.find?_push _) (.refl _)
    apply Matches.bind (.inScope (Statement.matches_bindAll statements hnested (.push _))) id
    rintro statements b _ hscopes ⟨rfl, hextends⟩
    exact ⟨hscopes, rfl, hextends⟩

theorem Statement.matches_bindAll {outer : ScopeStack} : ∀ (ss : List (Statement Unit Unit))
    {binder : Binder} {scope : Scope}, binder.Shows scope → outer.Over binder.scopes →
      Matches outer.Over binder.Yields (Statement.bindAll ss binder)
        (Statement.resolveAll scope binder.symbols ss)
  | [], _, _, _, hover => ⟨hover, rfl, .refl _⟩
  | s :: rest, binder, scope, h, hover => by
    rw [Statement.bindAll, Statement.resolveAll]
    apply Matches.bind (Statement.matches_bindNames s h hover) id
    rintro first b ⟨_, scope', _⟩ hover₁ ⟨hshows, hresult, hextends⟩
    cases hresult
    apply Matches.bind (Statement.matches_bindAll rest hshows hover₁) id
    rintro rest b' _ hover' ⟨rfl, hextends'⟩
    exact ⟨hover', rfl, hextends.trans hextends'⟩

end

/-! ## Headings -/

theorem Definition.bindHeading_apply (function : Definition Unit Unit) (binder : Binder) :
    function.bindHeading binder =
      if binder.scopes.globals.contains function.name.name then
        .error (.rejected ⟨.duplicateFunction function.name.name, function.name.span⟩) binder
      else
        match Parameter.repeated? [] function.parameters with
        | some p => .error (.rejected ⟨.duplicateParameter p.name.name, p.name.span⟩) binder
        | none =>
          let entered := function.enter binder.symbols
          .ok entered.1
            ⟨binder.scopes.bindGlobal function.name.name entered.1.symbol, entered.2⟩ := by
  change (if _ then _ else _ : Binding Heading) binder = _
  split
  · rfl
  · cases Parameter.repeated? [] function.parameters <;> rfl

theorem Parameter.extends_declareAll (table : SymbolTable) (parameters : List (Parameter Unit)) :
    table.Extends (declareAll table parameters).2 := by
  induction parameters generalizing table with
  | nil => exact .refl table
  | cons p rest ih =>
    exact (SymbolTable.Extends.insert table _).trans
      (ih (table.declareVariable p.name.name none .parameter))

theorem Parameter.symbol_lt_of_declareAll {table : SymbolTable}
    {parameters : List (Parameter Unit)} :
    ∀ p ∈ (declareAll table parameters).1, p.symbol < (declareAll table parameters).2.size := by
  induction parameters generalizing table with
  | nil => simp [declareAll]
  | cons p rest ih =>
    have hrest := (extends_declareAll (table.declareVariable p.name.name none .parameter) rest).size
    rw [SymbolTable.size_declareVariable] at hrest
    rw [declareAll, List.forall_mem_cons]
    exact ⟨Nat.lt_of_le_of_lt (Nat.mod_le ..) hrest, ih⟩

theorem Parameter.exists_bindAll {outer scopes : ScopeStack} {symbols : SymbolTable}
    {parameters : List (Parameter SymbolId)} (h : Binder.Shows ⟨scopes, symbols⟩ scope)
    (hover : outer.Over scopes) (hsymbols : ∀ p ∈ parameters, p.symbol < symbols.size) :
    ∃ scopes', bindAll parameters ⟨scopes, symbols⟩ = .ok () ⟨scopes', symbols⟩ ∧
      outer.Over scopes' ∧ Binder.Shows ⟨scopes', symbols⟩ (scope.enter symbols parameters) := by
  induction parameters generalizing scopes scope with
  | nil => exact ⟨scopes, rfl, hover, h⟩
  | cons p rest ih =>
    rw [List.forall_mem_cons] at hsymbols
    obtain ⟨scopes₁, hscopes₁, hover₁⟩ := hover.exists_bind p.name.name p.symbol
    have h₁ : Binder.Shows ⟨scopes₁, symbols⟩ _ :=
      h.declare (ScopeStack.find?_bind hscopes₁) (.refl _) hsymbols.1
    obtain ⟨scopes', hrun, hshows⟩ := ih h₁ hover₁ hsymbols.2
    refine ⟨scopes', ?_, hshows⟩
    change (Binder.changeScopes _ >>= fun _ => bindAll rest) _ = _
    rw [Binding.bind_apply, Binder.changeScopes, hscopes₁]
    exact hrun

namespace Definition

theorem extends_enter (function : Definition Unit Unit) (table : SymbolTable) :
    table.Extends (function.enter table).2 :=
  ((SymbolTable.Extends.insert table _).trans (Parameter.extends_declareAll ..)).trans
    (.setParameters ..)

/-- A function is entered into the table and into the names of the whole program. -/
theorem matches_bindHeading (function : Definition Unit Unit) (h : binder.Shows scope)
    (hshallow : binder.scopes.shallow = []) :
    Matches (·.shallow = []) (fun heading b r => binder.Yields heading b r ∧
        b.Shows (scope.declare function.name.name (b.symbols.referentOf heading.symbol)) ∧
        ∀ p ∈ heading.parameters, p.symbol < b.symbols.size)
      (function.bindHeading binder) (function.declare scope binder.symbols) := by
  have hname : binder.scopes.globals.contains function.name.name =
      (scope.find? function.name.name).isSome := by
    rw [Std.ExtTreeMap.contains_eq_isSome_getElem?, ← ScopeStack.find?_of_shallow hshallow]
    cases hfind : binder.scopes.find? function.name.name with
    | none => rw [h.hidden hfind, Option.isSome_none, Option.isSome_none]
    | some id => rw [(h.shown hfind).2, Option.isSome_some, Option.isSome_some]
  rw [bindHeading_apply, hname]
  unfold declare
  dsimp only
  split
  · exact ⟨hshallow, rfl⟩
  · cases Parameter.repeated? [] function.parameters with
    | some p => exact ⟨hshallow, rfl⟩
    | none =>
      have hextends := function.extends_enter binder.symbols
      have hparameters := (Parameter.extends_declareAll
        (binder.symbols.declareFunction function.name.name) function.parameters).size
      rw [SymbolTable.size_declareFunction] at hparameters
      refine ⟨hshallow, ⟨rfl, hextends⟩, h.declare (ScopeStack.find?_bindGlobal hshallow _ _)
        hextends (Nat.lt_of_le_of_lt (Nat.mod_le ..) ?_), fun p hp => ?_⟩
      · rw [enter, SymbolTable.size_setParameters]
        exact hparameters
      · rw [enter, SymbolTable.size_setParameters]
        exact Parameter.symbol_lt_of_declareAll p hp

theorem matches_mapM (functions : List (Definition Unit Unit)) (h : binder.Shows scope)
    (hshallow : binder.scopes.shallow = []) :
    Matches (·.shallow = []) (fun headings b r => binder.Yields headings b (r.1, r.2.2) ∧
        b.Shows r.2.1 ∧ ∀ heading ∈ headings, ∀ p ∈ heading.parameters, p.symbol < b.symbols.size)
      (functions.mapM bindHeading binder) (declareAll scope binder.symbols functions) := by
  induction functions generalizing binder scope with
  | nil => exact ⟨hshallow, ⟨rfl, .refl _⟩, h, by simp⟩
  | cons function functions ih =>
    rw [List.mapM_cons, declareAll]
    apply Matches.bind (matches_bindHeading function h hshallow) id
    rintro heading b _ hshallow₁ ⟨⟨rfl, hextends⟩, h₁, hsymbols⟩
    apply Matches.bind (ih h₁ hshallow₁) id
    rintro headings b' ⟨_, scope', _⟩ hshallow' ⟨⟨hresult, hextends'⟩, h', hsymbols'⟩
    cases hresult
    refine ⟨hshallow', ⟨rfl, hextends.trans hextends'⟩, h',
      List.forall_mem_cons.2 ⟨fun p hp => ?_, hsymbols'⟩⟩
    exact Nat.lt_of_lt_of_le (hsymbols p hp) hextends'.size

end Definition

namespace Heading

theorem matches_bindNames {heading : Heading} (h : binder.Shows scope)
    (hsymbols : ∀ p ∈ heading.parameters, p.symbol < binder.symbols.size) :
    Matches (· = binder.scopes) binder.Yields (heading.bindNames binder)
      (heading.resolve scope binder.symbols) := by
  have hnested : binder.nested.Shows scope := h.extend (ScopeStack.find?_push _) (.refl _)
  obtain ⟨scopes, hrun, hover, hshows⟩ := Parameter.exists_bindAll hnested (.push _) hsymbols
  refine Matches.inScope ?_
  rw [bindBody, Binding.bind_apply, show Parameter.bindAll _ binder.nested = _ from hrun]
  apply Matches.bind (Block.matches_bindNames heading.source.body hshows) (· ▸ hover)
  rintro body b _ hscopes ⟨rfl, hextends⟩
  exact ⟨hscopes ▸ hover, rfl, hextends⟩

theorem matches_mapM {headings : List Heading} (h : binder.Shows scope)
    (hsymbols : ∀ heading ∈ headings, ∀ p ∈ heading.parameters, p.symbol < binder.symbols.size) :
    Matches (· = binder.scopes) binder.Yields (headings.mapM bindNames binder)
      (resolveAll scope binder.symbols headings) := by
  induction headings generalizing binder with
  | nil => exact ⟨rfl, rfl, .refl _⟩
  | cons heading headings ih =>
    rw [List.forall_mem_cons] at hsymbols
    rw [List.mapM_cons, resolveAll]
    apply Matches.bind (matches_bindNames h hsymbols.1) id
    rintro function b _ hscopes ⟨rfl, hextends⟩
    apply Matches.bind (ih (h.extend (by simp [hscopes]) hextends) fun heading hheading p hp =>
      Nat.lt_of_lt_of_le (hsymbols.2 heading hheading p hp) hextends.size) (·.trans hscopes)
    rintro functions b' _ hscopes' ⟨rfl, hextends'⟩
    exact ⟨hscopes'.trans hscopes, rfl, hextends.trans hextends'⟩

end Heading

/-- Binding names with a stack of scopes gives what the rules give, and complains where they do. -/
theorem Program.bindNames_eq (program : Program.Parsed) :
    program.bindNames = program.resolve.mapError .rejected := by
  have hmatches : Matches (fun _ => True) (fun program b r => r = (program, b.symbols))
      (program.bindFunctions {}) program.resolve := by
    have hempty : Binder.Shows {} [] :=
      ⟨fun _ => rfl, fun hname => by simp [ScopeStack.find?] at hname⟩
    apply Matches.bind (Definition.matches_mapM program.functions hempty rfl) fun _ => trivial
    rintro headings b ⟨_, scope, _⟩ - ⟨⟨hresult, -⟩, h, hsymbols⟩
    cases hresult
    apply Matches.bind (Heading.matches_mapM h hsymbols) fun _ => trivial
    rintro functions b' _ - ⟨rfl, -⟩
    exact ⟨trivial, rfl⟩
  rw [bindNames]
  match program.bindFunctions {}, program.resolve, hmatches with
  | .ok _ _, .ok _, hmatches => exact congrArg Except.ok hmatches.2.symm
  | .error _ _, .error _, hmatches => exact congrArg Except.error hmatches.2

theorem Program.bindNames_eq_ok {program : Program.Parsed} {result : Program.Scoped × SymbolTable} :
    program.bindNames = .ok result ↔ program.resolve = .ok result := by
  rw [bindNames_eq]
  cases program.resolve <;> simp [Except.mapError]

end Cinder
