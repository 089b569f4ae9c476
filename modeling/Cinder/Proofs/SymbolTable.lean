import Cinder.SymbolTable

/-!
# Lookups in symbol tables

Handles are positions as long as they fit, so a table keeps what it has been told
about a symbol until that symbol is changed.
-/

namespace Cinder

theorem Arena.next_eq {α : Type} {arena : Arena α} (h : arena.size < UInt32.size) :
    arena.next = arena.size :=
  Nat.mod_eq_of_lt h

namespace SymbolTable

variable {table : SymbolTable} {id : SymbolId}

theorem next_eq (h : table.size < UInt32.size) : table.next = table.size :=
  Arena.next_eq h

@[simp] theorem size_insert (table : SymbolTable) (symbol : Symbol) :
    (table.insert symbol).size = table.size + 1 :=
  Arena.size_push ..

@[simp] theorem size_declareVariable (table : SymbolTable) (name : String) (ty : Option Ty)
    (origin : Origin) : (table.declareVariable name ty origin).size = table.size + 1 :=
  size_insert ..

@[simp] theorem size_declareFunction (table : SymbolTable) (name : String) :
    (table.declareFunction name).size = table.size + 1 :=
  size_insert ..

theorem get?_insert (table : SymbolTable) (symbol : Symbol) (id : SymbolId) :
    (table.insert symbol).get? id = if id = table.size then some symbol else table.get? id :=
  Arena.get?_push ..

theorem get?_eq_none_iff : table.get? id = none ↔ table.size ≤ id :=
  Arena.get?_eq_none_iff ..

theorem lt_size_of_get? {symbol : Symbol} (h : table.get? id = some symbol) : id < table.size := by
  apply Nat.lt_of_not_le
  intro hle
  rw [get?_eq_none_iff.2 hle] at h
  cases h

theorem exists_get? (h : id < table.size) : ∃ symbol, table.get? id = some symbol := by
  cases hget : table.get? id with
  | some symbol => exact ⟨symbol, rfl⟩
  | none => exact absurd (get?_eq_none_iff.1 hget) (Nat.not_le.2 h)

theorem get_eq_ok {symbol : Symbol} : table.get id = .ok symbol ↔ table.get? id = some symbol := by
  unfold SymbolTable.get
  cases table.get? id <;> simp

@[simp] theorem size_setKind (table : SymbolTable) (id : SymbolId) (kind : SymbolKind) :
    (table.setKind id kind).size = table.size := by
  unfold setKind
  split
  · exact Arena.size_set ..
  · rfl

theorem get?_setKind {symbol : Symbol} (h : table.get? id = some symbol) (kind : SymbolKind)
    (j : SymbolId) :
    (table.setKind id kind).get? j =
      if j = id then some { symbol with kind := kind } else table.get? j := by
  have hlt : id < table.symbols.size := lt_size_of_get? h
  rw [setKind, h]
  change (table.symbols.set id _).get? j = _
  rw [Arena.get?_set]
  by_cases hj : j = id
  · rw [if_pos hj, if_pos hj.symm, if_pos hlt]
  · rw [if_neg hj, if_neg fun h => hj h.symm]
    rfl

theorem setParameters_eq {table : SymbolTable} {id : SymbolId} {name : String}
    {old : List SymbolId} {returnType : Option Ty}
    (h : table.get? id = some ⟨name, .function old returnType⟩) (parameters : List SymbolId) :
    table.setParameters id parameters = table.setKind id (.function parameters returnType) := by
  rw [setParameters, h]

theorem size_setParameters (table : SymbolTable) (id : SymbolId) (parameters : List SymbolId) :
    (table.setParameters id parameters).size = table.size := by
  unfold setParameters
  split
  · exact size_setKind ..
  · rfl

theorem type?_eq_some {ty : Ty} :
    table.type? id = some ty ↔
      ∃ name origin, table.get? id = some ⟨name, .var (some ty) origin⟩ := by
  unfold type?
  split
  · rename_i name ty' origin h
    rw [h]
    constructor
    · rintro rfl
      exact ⟨name, origin, rfl⟩
    · rintro ⟨name', origin', h'⟩
      cases h'
      rfl
  · rename_i hne
    constructor
    · intro h
      cases h
    · rintro ⟨name, origin, h⟩
      exact absurd h (hne name (some ty) origin)

theorem typeOf_eq_ok {ty : Ty} : table.typeOf id = .ok ty ↔ table.type? id = some ty := by
  rw [type?_eq_some]
  unfold typeOf
  cases hget : table.get? id with
  | none => simp [SymbolTable.get, hget, bind, Except.bind]
  | some symbol =>
    obtain ⟨name, kind⟩ := symbol
    rw [get_eq_ok.2 hget]
    cases kind with
    | function parameters returnType => simp [bind, Except.bind]
    | var ty' origin => cases ty' <;> simp [bind, Except.bind]

/-- The second table has all symbols of the first one, and those that it adds are
variables. -/
structure Keeps (table table' : SymbolTable) : Prop where
  get : ∀ {id symbol}, table.get? id = some symbol → table'.get? id = some symbol
  added : ∀ {id name parameters returnType},
    table'.get? id = some ⟨name, .function parameters returnType⟩ →
      table.get? id = some ⟨name, .function parameters returnType⟩

theorem Keeps.refl (table : SymbolTable) : table.Keeps table :=
  ⟨id, id⟩

theorem Keeps.trans {table table' table'' : SymbolTable} (h : table.Keeps table')
    (h' : table'.Keeps table'') : table.Keeps table'' :=
  ⟨fun hget => h'.get (h.get hget), fun hget => h.added (h'.added hget)⟩

theorem Keeps.size_le {table table' : SymbolTable} (h : table.Keeps table') :
    table.size ≤ table'.size := by
  apply Nat.le_of_not_lt
  intro hlt
  obtain ⟨symbol, hget⟩ := exists_get? hlt
  exact absurd (lt_size_of_get? (h.get hget)) (Nat.lt_irrefl _)

theorem keeps_declareVariable (table : SymbolTable) (name : String) (ty : Option Ty)
    (origin : Origin) : table.Keeps (table.declareVariable name ty origin) := by
  refine ⟨fun {id symbol} h => ?_, fun h => ?_⟩
  · rw [declareVariable, get?_insert, if_neg (Nat.ne_of_lt (lt_size_of_get? h))]
    exact h
  · rw [declareVariable, get?_insert] at h
    split at h
    · cases h
    · exact h

theorem Keeps.isTemporary {table table' : SymbolTable} (h : table.Keeps table') {id : SymbolId}
    (hid : id < table.size) : table'.isTemporary id = table.isTemporary id := by
  obtain ⟨symbol, hget⟩ := exists_get? hid
  simp only [SymbolTable.isTemporary, h.get hget, hget]

end SymbolTable

end Cinder
