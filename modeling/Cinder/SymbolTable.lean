import Cinder.Arena
import Cinder.Fault

/-!
# Symbol tables

The table records every symbol once; everything else refers to a symbol by its
position.
-/

namespace Cinder

structure SymbolTable where
  symbols : Arena Symbol := {}
deriving DecidableEq, Repr

namespace SymbolTable

def size (table : SymbolTable) : Nat :=
  table.symbols.size

def next (table : SymbolTable) : SymbolId :=
  table.symbols.next

def insert (table : SymbolTable) (symbol : Symbol) : SymbolTable :=
  ⟨table.symbols.push symbol⟩

def declareFunction (table : SymbolTable) (name : String) : SymbolTable :=
  table.insert ⟨name, .function [] none⟩

def declareVariable (table : SymbolTable) (name : String) (ty : Option Ty) (origin : Origin) :
    SymbolTable :=
  table.insert ⟨name, .var ty origin⟩

def get? (table : SymbolTable) (id : SymbolId) : Option Symbol :=
  table.symbols.get? id

def get (table : SymbolTable) (id : SymbolId) : Except Fault Symbol :=
  match table.get? id with
  | some symbol => .ok symbol
  | none => .error .outOfRange

def setKind (table : SymbolTable) (id : SymbolId) (kind : SymbolKind) : SymbolTable :=
  match table.get? id with
  | some symbol => ⟨table.symbols.set id { symbol with kind := kind }⟩
  | none => table

/-- Fills in the parameters of a function; other symbols are left alone. -/
def setParameters (table : SymbolTable) (id : SymbolId) (parameters : List SymbolId) :
    SymbolTable :=
  match table.get? id with
  | some ⟨_, .function _ returnType⟩ => table.setKind id (.function parameters returnType)
  | _ => table

/-- Name of a symbol; empty for a position outside the table. -/
def nameOf (table : SymbolTable) (id : SymbolId) : String :=
  (table.get? id).elim "" Symbol.name

def type? (table : SymbolTable) (id : SymbolId) : Option Ty :=
  match table.get? id with
  | some ⟨_, .var ty _⟩ => ty
  | _ => none

def typeOf (table : SymbolTable) (id : SymbolId) : Except Fault Ty := do
  let symbol ← table.get id
  match symbol.kind with
  | .var (some ty) _ => .ok ty
  | _ => .error (.untypedSymbol symbol)

def isTemporary (table : SymbolTable) (id : SymbolId) : Bool :=
  match table.get? id with
  | some ⟨_, .var _ .temporary⟩ => true
  | _ => false

def returnTypeOf (table : SymbolTable) (id : SymbolId) : Except Fault (Option Ty) := do
  let symbol ← table.get id
  match symbol.kind with
  | .function _ returnType => .ok returnType
  | _ => .error (.notAFunction symbol)

def parametersOf (table : SymbolTable) (id : SymbolId) : Except Fault (List SymbolId) := do
  let symbol ← table.get id
  match symbol.kind with
  | .function parameters _ => .ok parameters
  | _ => .error (.notAFunction symbol)

def setType (table : SymbolTable) (id : SymbolId) (ty : Ty) : Except Fault SymbolTable := do
  let symbol ← table.get id
  match symbol.kind with
  | .var _ origin => .ok (table.setKind id (.var (some ty) origin))
  | kind => .error (.notAVariable kind)

end SymbolTable

end Cinder
