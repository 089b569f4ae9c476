import Cinder.Diagnostic
import Cinder.Fault

/-!
# Failures

A stage that reads a program may reject it, or meet a broken invariant of its
input.  Accepted programs never break one.
-/

namespace Cinder

inductive Failure where
  | rejected (diagnostic : Diagnostic)
  | broken (fault : Fault)
deriving DecidableEq, Repr

instance : MonadLift (Except Diagnostic) (Except Failure) where
  monadLift result := result.mapError .rejected

instance : MonadLift (Except Fault) (Except Failure) where
  monadLift result := result.mapError .broken

def reject {α : Type} (complaint : Complaint) (span : Span) : Except Failure α :=
  .error (.rejected ⟨complaint, span⟩)

end Cinder
