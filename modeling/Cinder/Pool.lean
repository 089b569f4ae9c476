/-!
# Pools of distinct values

A pool keeps every distinct value once, in the order of its first request, and
numbers them in that order.
-/

namespace Cinder

structure Pool (α : Type) where
  entries : List α := []
deriving DecidableEq, Repr

namespace Pool

variable {α : Type} [DecidableEq α]

def isEmpty (pool : Pool α) : Bool :=
  pool.entries.isEmpty

def request (pool : Pool α) (a : α) : Pool α :=
  if a ∈ pool.entries then pool else ⟨pool.entries ++ [a]⟩

def ofRequests (requests : List α) : Pool α :=
  requests.foldl request {}

def number (pool : Pool α) (a : α) : Nat :=
  pool.entries.idxOf a

theorem mem_request (pool : Pool α) (a b : α) :
    b ∈ (pool.request a).entries ↔ b ∈ pool.entries ∨ b = a := by
  unfold request
  split <;> rename_i h
  · exact ⟨.inl, fun h' => h'.elim id fun h'' => h'' ▸ h⟩
  · simp

theorem number_request {pool : Pool α} {a : α} (h : a ∈ pool.entries) (b : α) :
    (pool.request b).number a = pool.number a := by
  unfold request
  split
  · rfl
  · rw [number, List.idxOf_append, if_pos h]
    rfl

/-- A value keeps its number: the one that it has got by the time it is asked for is the one of
the pool in the end. -/
theorem number_ofRequests (before after : List α) (a : α) :
    (ofRequests (before ++ a :: after)).number a = ((ofRequests before).request a).number a := by
  have hlater : ∀ (later : List α) {pool : Pool α}, a ∈ pool.entries →
      (later.foldl request pool).number a = pool.number a := by
    intro later
    induction later with
    | nil => exact fun _ => rfl
    | cons b later ih =>
      intro pool h
      rw [List.foldl_cons, ih ((mem_request ..).2 (.inl h)), number_request h]
  rw [ofRequests, List.foldl_append, List.foldl_cons]
  exact hlater after ((mem_request ..).2 (.inr rfl))

end Pool

end Cinder
