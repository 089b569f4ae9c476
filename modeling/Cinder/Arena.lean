/-!
# Arenas

Values that refer to each other live in an arena and are addressed by the order
in which they were added.
-/

namespace Cinder

/-- Handles are 32 bits wide and wrap around. -/
def handle (index : Nat) : Nat :=
  index % UInt32.size

/-- The handle some places behind another one.  `none` if the sum does not fit a
machine word. -/
def handleAfter? (index places : Nat) : Option Nat :=
  if index + places < UInt64.size then some (handle (index + places)) else none

/-- The opposite of a number of 64 bits.  The least one has none. -/
def opposite? (n : Int) : Option Int :=
  if n = (BitVec.intMin 64).toInt then none else some (-n)

structure Arena (α : Type) where
  items : Array α := #[]
deriving DecidableEq, Repr

namespace Arena

variable {α : Type}

def ofList (items : List α) : Arena α :=
  ⟨items.toArray⟩

def toList (arena : Arena α) : List α :=
  arena.items.toList

def size (arena : Arena α) : Nat :=
  arena.items.size

def isEmpty (arena : Arena α) : Bool :=
  arena.size == 0

def next (arena : Arena α) : Nat :=
  handle arena.size

/-- Adds a value at the end; its handle is the `next` of the arena before. -/
def push (arena : Arena α) (a : α) : Arena α :=
  ⟨arena.items.push a⟩

def get? (arena : Arena α) (i : Nat) : Option α :=
  arena.items[i]?

def set (arena : Arena α) (i : Nat) (a : α) : Arena α :=
  ⟨arena.items.setIfInBounds i a⟩

def handles (arena : Arena α) : List Nat :=
  List.range arena.size

def map {β : Type} (f : α → β) (arena : Arena α) : Arena β :=
  ofList (arena.toList.map f)

/-- Replaces the values of a list in order, up to the first one without a
replacement. -/
def replaceWhile (f : α → Option α) : List α → List α
  | [] => []
  | a :: rest =>
    match f a with
    | some b => b :: replaceWhile f rest
    | none => a :: rest

/-- Replaces values in order, up to the first one without a replacement, and tells
whether there was none such. -/
def replaceAll (f : α → Option α) (arena : Arena α) : Arena α × Bool :=
  (ofList (replaceWhile f arena.toList), arena.toList.all fun a => (f a).isSome)

@[simp] theorem get?_push (arena : Arena α) (a : α) (i : Nat) :
    (arena.push a).get? i = if i = arena.size then some a else arena.get? i :=
  Array.getElem?_push

theorem get?_set (arena : Arena α) (a : α) (i j : Nat) :
    (arena.set i a).get? j =
      if i = j then (if i < arena.size then some a else none) else arena.get? j :=
  Array.getElem?_setIfInBounds

@[simp] theorem size_push (arena : Arena α) (a : α) : (arena.push a).size = arena.size + 1 := by
  simp [push, size]

@[simp] theorem size_set (arena : Arena α) (i : Nat) (a : α) :
    (arena.set i a).size = arena.size := by
  simp [set, size]

theorem get?_eq_none_iff (arena : Arena α) (i : Nat) :
    arena.get? i = none ↔ arena.size ≤ i := by
  simp [get?, size]

end Arena

end Cinder
