/-!
# Frames

The frame of a function grows downward from the frame pointer, so that every slot
has a negative offset.
-/

namespace Cinder

def roundUp (n multiple : Nat) : Nat :=
  (n + multiple - 1) / multiple * multiple

structure Frame where
  size : Nat := 0
deriving DecidableEq, Repr

namespace Frame

def reserve (frame : Frame) (bytes : Nat) : Int × Frame :=
  let size := frame.size + bytes
  (-size, ⟨size⟩)

def reserveWord (frame : Frame) : Int × Frame :=
  reserve ⟨roundUp frame.size 8⟩ 8

def reserveWords {α : Type} (frame : Frame) : List α → List (α × Int) × Frame
  | [] => ([], frame)
  | a :: rest =>
    let (offset, frame) := frame.reserveWord
    let (slots, frame) := frame.reserveWords rest
    ((a, offset) :: slots, frame)

end Frame

theorem le_roundUp (n : Nat) {multiple : Nat} (h : 0 < multiple) : n ≤ roundUp n multiple := by
  have hsplit := Nat.div_add_mod (n + multiple - 1) multiple
  have hmod := Nat.mod_lt (n + multiple - 1) h
  rw [roundUp, Nat.mul_comm]
  omega

theorem dvd_roundUp (n multiple : Nat) : multiple ∣ roundUp n multiple :=
  Nat.dvd_mul_left ..

end Cinder
