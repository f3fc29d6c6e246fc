import Joinability.Search.Result

/-!
# Proofs as tactic scripts

A proof can be printed as a script for an interactive prover: one block per side that has steps,
which turns that side of the goal from its root into the text at which the sides meet.

The tactic `rw` replaces every match of its rule, so it stands for a step only where the match is
the only one; consecutive steps of this kind share one `rw`. Every other step is a tactic of its
own, which names the match that it means. If no side has a step, the two sides are the same and
`rfl` is the whole script.
-/

namespace Joinability

/-- One tactic of a script. -/
inductive Tactic where
  /-- Replaces every match of each rule in turn. -/
  | rw (uses : List RuleUse)
  /-- Replaces one match of a rule. -/
  | nth (use : RuleUse)
deriving DecidableEq, Repr

namespace Tactic

/-- Whether a use of a rule replaces its only match. -/
def isOnlyMatch (u : RuleUse) : Bool := u.occurrence == 0 && u.matchCount ≤ 1

/-- The tactics for uses of rules one after the other. -/
def ofUses : List RuleUse → List Tactic
  | [] => []
  | u :: us =>
    if isOnlyMatch u then
      match ofUses us with
      | rw vs :: rest => rw (u :: vs) :: rest
      | rest => rw [u] :: rest
    else nth u :: ofUses us

/-- A text of several parts with a comma between them. -/
private def listed (parts : List Text) : Text := (utf8 ", ").intercalate parts

/-- The text of a tactic. -/
def render : Tactic → Text
  | rw uses => utf8 "rw [" ++ listed (uses.map RuleUse.reference) ++ utf8 "]"
  | nth u => utf8 "nth_rewrite " ++ decimal u.occurrence ++ utf8 " " ++ u.reference

/-- The name of the block that works on a side. -/
def blockName : Side → Text
  | .left => utf8 "conv_lhs"
  | .right => utf8 "conv_rhs"

/-- The block that changes a side by uses of rules one after the other. -/
def renderBlock (side : Side) (uses : List RuleUse) : Text :=
  blockName side ++ utf8 " \x7b " ++ listed ((ofUses uses).map render) ++ utf8 " \x7d"

end Tactic

/-- The script for the uses of rules on each side, with one line per side that has any. -/
def tacticScript (sides : List (Side × List RuleUse)) : Text :=
  match sides.filter fun (_, uses) ↦ !uses.isEmpty with
  | [] => utf8 "rfl"
  | blocks => (utf8 "\n").intercalate (blocks.map fun (side, uses) ↦ Tactic.renderBlock side uses)

/-- The script for the units of a proof. -/
def explain {π : Type} (units : List (ProofUnit π)) : Text :=
  tacticScript (units.map fun u ↦ (u.side, u.steps.map (·.use)))

end Joinability
