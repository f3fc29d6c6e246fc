import Joinability.Rule.Use
import Joinability.Side

/-!
# Results of a search

A search ends in one of three ways. It has proved the goal, it has tried everything that its depth
bound admits, or it has spent its budget. In each case the result keeps the statistics of the
search, and a proof comes with one unit per side that lists the steps from the root of that side to
the text at which the two sides meet.
-/

namespace Joinability

/-- What a search has done so far. -/
structure Stats where
  /-- The expansion steps taken. -/
  steps : Nat := 0
  /-- The reducts that the engine has reported. -/
  reducts : Nat := 0
  /-- The vertices added on the left. -/
  left : Nat := 0
  /-- The vertices added on the right. -/
  right : Nat := 0
  /-- The edges added. -/
  edges : Nat := 0
  /-- The reducts that were vertices of the same side. -/
  duplicates : Nat := 0
  /-- The greatest depth of a vertex. -/
  maxDepth : Nat := 0
deriving DecidableEq, Repr, Inhabited

namespace Stats

/-- The vertices added on both sides. -/
def vertices (s : Stats) : Nat := s.left + s.right

/-- The statistics after a vertex was added on a side at a depth. -/
def withVertex (s : Stats) (side : Side) (depth : Nat) : Stats :=
  let s := { s with maxDepth := max s.maxDepth depth }
  match side with
  | .left => { s with left := s.left + 1 }
  | .right => { s with right := s.right + 1 }

end Stats

/-- One step of a proof, read away from the root of its side. -/
structure ProofStep where
  /-- The edge that is crossed. -/
  edge : Nat
  /-- The use of a rule on the edge. -/
  use : RuleUse
  /-- The text before the edge is crossed. -/
  before : Text
  /-- The text after the edge is crossed. -/
  after : Text
deriving DecidableEq, Repr, Inhabited

/-- The part of a proof that belongs to one side: its root equals the text at which the sides
meet. -/
structure ProofUnit (π : Type) where
  /-- The side. -/
  side : Side
  /-- The proof. -/
  proof : π
  /-- The steps from the root to the meeting text. -/
  steps : List ProofStep
deriving DecidableEq, Repr

/-- The three ways in which a search ends. -/
inductive Status where
  /-- The goal was proved. -/
  | success
  /-- Everything that the depth bound admits was tried. -/
  | failure
  /-- The step budget or the time limit was spent. -/
  | abort
deriving DecidableEq, Repr, Inhabited

namespace Status

/-- The name of a status. -/
def name : Status → Text
  | success => utf8 "success"
  | failure => utf8 "failure"
  | abort => utf8 "abort"

/-- Why the search ended without a proof; empty if it did not. -/
def message : Status → Text
  | success => []
  | failure => utf8 "exhausted search space"
  | abort => utf8 "resource exhausted"

end Status

/-- What a search ends with. -/
inductive Result (π : Type) where
  /-- A proof of the goal, with one unit per side unless the sides agreed from the start. -/
  | proved (proof : π) (units : List (ProofUnit π)) (stats : Stats)
  /-- No vertex is left to expand. -/
  | exhausted (stats : Stats)
  /-- The budget is spent. -/
  | aborted (stats : Stats)
deriving DecidableEq, Repr

namespace Result

variable {π : Type}

/-- How the search ended. -/
def status : Result π → Status
  | proved .. => .success
  | exhausted .. => .failure
  | aborted .. => .abort

/-- The proof of the goal, if it was found. -/
def proof? : Result π → Option π
  | proved p _ _ => some p
  | _ => none

/-- The units of the proof; there are none without a proof. -/
def units : Result π → List (ProofUnit π)
  | proved _ us _ => us
  | _ => []

/-- What the search had done when it ended. -/
def stats : Result π → Stats
  | proved _ _ s | exhausted s | aborted s => s

/-- The number of steps in all units of the proof. -/
def proofLength (r : Result π) : Nat := (r.units.flatMap (·.steps)).length

end Result

end Joinability
