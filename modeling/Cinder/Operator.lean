/-!
# Binary operators
-/

namespace Cinder

inductive Operator where
  | add
  | sub
  | mul
  | div
  | greater
  | less
deriving DecidableEq, Repr

namespace Operator

def all : List Operator :=
  [add, sub, mul, div, greater, less]

/-- Comparisons give a boolean whatever their operands are. -/
def isComparison : Operator → Bool
  | greater | less => true
  | _ => false

def sign : Operator → String
  | add => "+"
  | sub => "-"
  | mul => "*"
  | div => "/"
  | greater => ">"
  | less => "<"

def mnemonic : Operator → String
  | add => "add"
  | sub => "sub"
  | mul => "mul"
  | div => "div"
  | greater => "gt"
  | less => "lt"

end Operator

end Cinder
