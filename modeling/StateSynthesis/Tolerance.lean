import StateSynthesis.Fault

/-!
Tolerances. An angle is left out if its absolute value is at most the tolerance; a whole vector of
angles is worth an attempt if one of them reaches the tolerance. The second test may pass where the
first then leaves out everything, never the other way round.
-/
namespace StateSynthesis

variable {α : Type} [Scalar α]

open Scalar

namespace Tolerance

/-- A tolerance that is not a number is refused as well. -/
def check (tolerance : α) : Except (Fault α) Unit :=
  if le zero tolerance then .ok () else .error (.negativeTolerance tolerance)

def exceeds (tolerance x : α) : Bool := lt tolerance (abs x)

def anyReaches (tolerance : α) (xs : List α) : Bool := xs.any fun x => le tolerance (abs x)

end Tolerance

end StateSynthesis
