import Joinability.Text.Basic

/-!
# Terms

The search treats what its terms stand for as opaque: a term carries a payload that only the
rewriting engine reads, and the text under which it is printed, compared and counted. A term may
carry no payload.
-/

namespace Joinability

/-- A term: the engine's payload, if any, and the printed form. -/
structure Term (α : Type) where
  /-- What the engine works on. -/
  payload : Option α := none
  /-- What the search compares and prints. -/
  pretty : Text := []
deriving DecidableEq, Repr, Inhabited

namespace Term

variable {α : Type}

/-- A term is empty when it carries no payload and prints as nothing. -/
def isEmpty (t : Term α) : Bool := t.pretty.isEmpty && t.payload.isNone

end Term

end Joinability
