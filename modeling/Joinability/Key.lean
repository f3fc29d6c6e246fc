import Joinability.Term

/-!
# Canonical keys

A canonical key is a function from terms to texts; terms with the same key are one vertex. Any
function will do. The one of this file makes no difference between capitals and small letters.
-/

namespace Joinability

namespace Key

variable {α : Type}

/-- The printed form with ASCII capitals in lower case. -/
def lowercase (t : Term α) : Text :=
  t.pretty.map fun b ↦ if 0x41 ≤ b && b ≤ 0x5A then b + 0x20 else b

end Key

end Joinability
